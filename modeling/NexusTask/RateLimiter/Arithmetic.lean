import NexusTask.Lib.MachineInt
import NexusTask.RateLimiter

/-!
# The refill in machine arithmetic

`TokenBucket.refill` computes with unbounded numbers. The code subtracts two readings, divides and
multiplies in `int64_t`, turns the product into a `size_t` and adds it to the count in `size_t`, on
whatever the caller put into the `RateLimit`. Here the first three may fault, and the conversion and
the sum wrap. A sum that wraps comes out below the count, so the faults and a count that went down
are all there is to exclude; `Fits` says when none of it happens.
-/

set_option autoImplicit false

namespace NexusTask

open Transition

/-- What the program has no defined behaviour for. -/
inductive Fault
  | divisionByZero
  | overflow
  deriving DecidableEq

namespace TokenBucket

/-- The milliseconds since the last refill. -/
def elapsed (b : TokenBucket) (now : Int) : Int := (now - b.lastRefill).tdiv 1000000

/-- What the `int64_t` multiplication comes to, if it does. -/
def product (b : TokenBucket) (now : Int) : Int :=
  (b.elapsed now).tdiv b.limit.refillInterval * b.limit.tokenRefillAmount

/-- The sum of the count and the product turned into a `size_t`; both wrap. -/
def wrappedSum (b : TokenBucket) (now : Int) : Nat :=
  (b.tokens + (b.product now % 2 ^ 64).toNat) % 2 ^ 64

/-- The refill of `try_acquire` as the machine computes it. -/
def machineRefill (b : TokenBucket) (now : Int) : Except Fault TokenBucket :=
  if ¬ InInt64 (now - b.lastRefill) then .error .overflow
  else if b.elapsed now ≥ b.limit.refillInterval then
    if b.limit.refillInterval = 0 then .error .divisionByZero
    else if ¬ InInt64 ((b.elapsed now).tdiv b.limit.refillInterval) then .error .overflow
    else if ¬ InInt64 (b.product now) then .error .overflow
    else .ok { b with tokens := min b.limit.maxTokens (b.wrappedSum now), lastRefill := now }
  else .ok b

/-- The refill is not due, or it divides by an interval that is not 0, the product fits, and adding
it to the count does not wrap. A negative product is turned into a number just below `2 ^ 64`, so
there it is a count that is small enough that saves the sum. -/
def Fits (b : TokenBucket) (now : Int) : Prop :=
  InInt64 (now - b.lastRefill) ∧
  (b.elapsed now < b.limit.refillInterval ∨
    b.limit.refillInterval ≠ 0 ∧ InInt64 (b.product now) ∧
      (0 ≤ b.product now ∧ b.tokens + b.product now < 2 ^ 64 ∨ b.tokens + b.product now < 0))

instance (b : TokenBucket) (now : Int) : Decidable (b.Fits now) :=
  inferInstanceAs (Decidable (_ ∧ (_ ∨ _ ∧ _ ∧ (_ ∧ _ ∨ _))))

/-- A refill without a fault, that leaves the count between what it was and `max_tokens`. -/
def Raises (b : TokenBucket) : Except Fault TokenBucket → Prop
  | .ok b' => b.tokens ≤ b'.tokens ∧ b'.tokens ≤ b.limit.maxTokens
  | .error _ => False

variable {b : TokenBucket} {now : Int}

/-- A sum that wraps is below the count. -/
theorem le_wrappedSum_iff (hp : InInt64 (b.product now)) :
    b.tokens ≤ b.wrappedSum now ↔
      0 ≤ b.product now ∧ b.tokens + b.product now < 2 ^ 64 ∨ b.tokens + b.product now < 0 := by
  unfold wrappedSum
  obtain ⟨hlow, hhigh⟩ := hp
  generalize b.product now = p at *
  omega

/-- The quotient fits whenever the elapsed time does: it is not negative. -/
theorem quotient_inInt64 (hle : b.lastRefill ≤ now) (h : InInt64 (now - b.lastRefill)) :
    InInt64 ((b.elapsed now).tdiv b.limit.refillInterval) := by
  have helapsed : (b.elapsed now).natAbs ≤ (now - b.lastRefill).natAbs :=
    Int.natAbs_tdiv_le_natAbs ..
  have hquotient : ((b.elapsed now).tdiv b.limit.refillInterval).natAbs ≤ (b.elapsed now).natAbs :=
    Int.natAbs_tdiv_le_natAbs ..
  obtain ⟨_, hhigh⟩ := h
  constructor <;> omega

/-- **The refill.** From a bucket with at most `max_tokens`, at a reading not before its last
refill. -/
theorem raises_iff (hcap : b.tokens ≤ b.limit.maxTokens) (hle : b.lastRefill ≤ now) :
    b.Raises (b.machineRefill now) ↔ b.Fits now := by
  unfold machineRefill Fits
  by_cases hspan : InInt64 (now - b.lastRefill)
  · rw [if_neg (not_not.mpr hspan), and_iff_right hspan]
    by_cases hdue : b.elapsed now ≥ b.limit.refillInterval
    · rw [if_pos hdue, or_iff_right (Int.not_lt.mpr hdue)]
      by_cases hzero : b.limit.refillInterval = 0
      · rw [if_pos hzero]
        exact iff_of_false id fun h => h.1 hzero
      · rw [if_neg hzero, if_neg (not_not.mpr (quotient_inInt64 hle hspan)), and_iff_right hzero]
        by_cases hp : InInt64 (b.product now)
        · rw [if_neg (not_not.mpr hp), and_iff_right hp, ← le_wrappedSum_iff hp]
          show b.tokens ≤ min b.limit.maxTokens (b.wrappedSum now) ∧ _ ↔ _
          rw [Nat.le_min, and_iff_left (Nat.min_le_left _ _), and_iff_right hcap]
        · rw [if_pos hp]
          exact iff_of_false id fun h => hp h.1
    · rw [if_neg hdue]
      exact iff_of_true ⟨le_refl _, hcap⟩ (.inl (Int.not_le.mp hdue))
  · rw [if_pos hspan]
    exact iff_of_false id fun h => hspan h.1

/-- Where the limit is valid and everything fits, the machine computes `refill`. -/
theorem machineRefill_eq_refill (hv : b.limit.Valid) (hle : b.lastRefill ≤ now) (h : b.Fits now) :
    b.machineRefill now = .ok (b.refill now) := by
  obtain ⟨hspan, hfits⟩ := h
  unfold machineRefill refill
  rw [if_neg (not_not.mpr hspan)]
  by_cases hdue : b.elapsed now ≥ b.limit.refillInterval
  · obtain ⟨hzero, hp, hsum⟩ := hfits.resolve_left (Int.not_lt.mpr hdue)
    have hcount : 0 ≤ (b.elapsed now).tdiv b.limit.refillInterval :=
      Int.tdiv_nonneg (Int.tdiv_nonneg (by omega) (by decide)) (Int.le_of_lt hv.1)
    have hpos : 0 ≤ b.product now := mul_nonneg hcount hv.2
    have hwrap : b.wrappedSum now = b.tokens + (b.product now).toNat := by
      unfold wrappedSum
      generalize b.product now = p at *
      omega
    rw [if_pos hdue, if_neg hzero, if_neg (not_not.mpr (quotient_inInt64 hle hspan)),
      if_neg (not_not.mpr hp), hwrap]
    exact congrArg Except.ok (if_pos hdue).symm
  · rw [if_neg hdue]
    exact congrArg Except.ok (if_neg hdue).symm

/-- What a refill without a fault leaves: the bucket, or one refilled now. -/
theorem machineRefill_cases {b' : TokenBucket} (h : b.machineRefill now = .ok b') :
    b' = b ∨
      b' = { b with tokens := min b.limit.maxTokens (b.wrappedSum now), lastRefill := now } := by
  unfold machineRefill at h
  split at h
  next => exact absurd h (by simp)
  next =>
    split at h
    next =>
      split at h
      next => exact absurd h (by simp)
      next =>
        split at h
        next => exact absurd h (by simp)
        next =>
          split at h
          next => exact absurd h (by simp)
          next => exact .inr (Except.ok.inj h).symm
    next => exact .inl (Except.ok.inj h).symm

/-- A refill leaves a bucket at most `max_tokens` if it had at most that. -/
theorem machineRefill_ok {b' : TokenBucket} (hcap : b.tokens ≤ b.limit.maxTokens)
    (hle : b.lastRefill ≤ now) (h : b.machineRefill now = .ok b') :
    b'.tokens ≤ b'.limit.maxTokens ∧ b'.lastRefill ≤ now := by
  rcases machineRefill_cases h with rfl | rfl
  · exact ⟨hcap, hle⟩
  · exact ⟨Nat.min_le_left _ _, le_refl _⟩

end TokenBucket

/-! ## Sequences of calls -/

/-- A refill of some bucket, and what came of it. -/
structure RefillRecord where
  before : TokenBucket
  result : Except Fault TokenBucket

/-- The limiter, the last clock reading, and the refills so far; after a fault nothing more is known
of the program. -/
structure Ledger where
  limiter : RateLimiter
  clock : Int
  refills : List RefillRecord
  faulted : Bool

namespace Ledger

def start (defaultLimit : RateLimit) (now : Int) : Ledger :=
  { limiter := .new defaultLimit, clock := now, refills := [], faulted := false }

def step (s : Ledger) : Session.Call → Option Ledger
  | .setLimit category limit now =>
      if s.faulted = false ∧ s.clock ≤ now then
        some { s with limiter := s.limiter.setLimit category limit now, clock := now }
      else none
  | .tryAcquire category made now =>
      if s.faulted = false ∧ s.clock ≤ made ∧ made ≤ now then
        let before := s.limiter.getBucket category made
        match before.machineRefill now with
        | .error fault => some {
            s with clock := now, refills := s.refills ++ [{ before, result := .error fault }],
                   faulted := true }
        | .ok b => some {
            s with limiter := { s.limiter with
                     buckets := Function.update s.limiter.buckets category (some b.consume.2) },
                   clock := now, refills := s.refills ++ [{ before, result := .ok b }] }
      else none

/-- No refill faulted, and each left its bucket's count between what it was and `max_tokens`. -/
def Sound (s : Ledger) : Prop := ∀ r ∈ s.refills, r.before.Raises r.result

/-- The refill of the call fits. -/
def RefillFits (s : Ledger) : Session.Call → Prop
  | .setLimit _ _ _ => True
  | .tryAcquire category made now => (s.limiter.getBucket category made).Fits now

instance (s : Ledger) : (c : Session.Call) → Decidable (s.RefillFits c)
  | .setLimit _ _ _ => .isTrue trivial
  | .tryAcquire category made now =>
      inferInstanceAs (Decidable ((s.limiter.getBucket category made).Fits now))

/-- Every bucket has at most `max_tokens` and was refilled before now; so does one made now. -/
def Capped (s : Ledger) : Prop :=
  ∀ category now, s.clock ≤ now → (s.limiter.getBucket category now).tokens
      ≤ (s.limiter.getBucket category now).limit.maxTokens ∧
    (s.limiter.getBucket category now).lastRefill ≤ now

theorem capped_start (defaultLimit : RateLimit) (now : Int) : Capped (start defaultLimit now) :=
  fun _ _ _ => ⟨le_refl _, le_refl _⟩

/-- One bucket is stored, and the clock goes on. -/
theorem Capped.store {s : Ledger} (h : Capped s) {limits : String → Option RateLimit}
    {category : String} {b : TokenBucket} {now : Int} {refills : List RefillRecord} {faulted : Bool}
    (hclock : s.clock ≤ now) (hcap : b.tokens ≤ b.limit.maxTokens) (hlast : b.lastRefill ≤ now) :
    Capped {
      limiter := { defaultLimit := s.limiter.defaultLimit, limits,
                   buckets := Function.update s.limiter.buckets category (some b) },
      clock := now, refills, faulted } := by
  intro c u hu
  by_cases hc : c = category
  · subst hc
    simp only [RateLimiter.getBucket, Function.update_self]
    exact ⟨hcap, le_trans hlast hu⟩
  · simp only [RateLimiter.getBucket, Function.update_of_ne hc]
    exact h c u (le_trans hclock hu)

theorem capped_step : Preserved step free Capped := by
  intro s c t h _ hstep
  cases c with
  | setLimit category limit now =>
    simp only [step] at hstep
    split at hstep
    next hok =>
      obtain rfl := Option.some.inj hstep
      exact h.store hok.2 (le_refl _) (le_refl _)
    next => exact absurd hstep (by simp)
  | tryAcquire category made now =>
    simp only [step] at hstep
    split at hstep
    next hok =>
      obtain ⟨_, hmade, hnow⟩ := hok
      obtain ⟨hcap, hlast⟩ := h category made hmade
      split at hstep
      next fault _ =>
        obtain rfl := Option.some.inj hstep
        exact fun c u hu => h c u (le_trans (le_trans hmade hnow) hu)
      next b hb =>
        obtain rfl := Option.some.inj hstep
        obtain ⟨hcap', hlast'⟩ := TokenBucket.machineRefill_ok hcap (le_trans hlast hnow) hb
        obtain ⟨hspent, hless⟩ := b.consume_spec
        refine h.store (le_trans hmade hnow) ?_ ?_
        · rw [hspent]
          show b.consume.2.tokens ≤ b.limit.maxTokens
          omega
        · rw [hspent]
          exact hlast'
    next => exact absurd hstep (by simp)

/-- A call keeps the refills sound exactly if its own refill fits. -/
theorem sound_step {s t : Ledger} {c : Session.Call} (h : Capped s) (hstep : step s c = some t) :
    Sound t ↔ Sound s ∧ RefillFits s c := by
  cases c with
  | setLimit category limit now =>
    simp only [step] at hstep
    split at hstep
    next => exact Option.some.inj hstep ▸ (and_iff_left trivial).symm
    next => exact absurd hstep (by simp)
  | tryAcquire category made now =>
    simp only [step] at hstep
    split at hstep
    next hok =>
      obtain ⟨_, hmade, hnow⟩ := hok
      obtain ⟨hcap, hlast⟩ := h category made hmade
      have hraises := TokenBucket.raises_iff hcap (le_trans hlast hnow)
      -- Either way the record that is added is the result of this refill.
      have hadded : t.refills = s.refills ++ [{
          before := s.limiter.getBucket category made
          result := (s.limiter.getBucket category made).machineRefill now }] := by
        split at hstep
        next fault hfault => exact Option.some.inj hstep ▸ hfault ▸ rfl
        next b hb => exact Option.some.inj hstep ▸ hb ▸ rfl
      unfold Sound
      rw [hadded]
      simp only [List.mem_append, List.mem_singleton, or_imp, forall_and, forall_eq]
      exact and_congr Iff.rfl hraises
    next => exact absurd hstep (by simp)

/-- **The refills.** For any default limit and any sequence of calls with readings that do not
decrease: none faults and each leaves the count between what it was and `max_tokens`, exactly if
each of them fits. -/
theorem refills_sound_iff {defaultLimit : RateLimit} {now : Int} {calls : List Session.Call}
    {s : Ledger} (run : Run step free (start defaultLimit now) calls s) :
    Sound s ↔ Run step RefillFits (start defaultLimit now) calls s :=
  run.exact_iff capped_step (fun _ _ _ h hstep => sound_step h hstep) (capped_start defaultLimit now)
    fun _ h => absurd h List.not_mem_nil

/-- Two tokens, one more every 100 ms: the refill at 250 ms adds two and is cut to the two there
may be. -/
theorem refills_sound_two :
    ∃ s, Run step free (start ⟨2, 100, 1⟩ 0)
      [.tryAcquire "" 0 0, .tryAcquire "" 0 50000000, .tryAcquire "" 50000000 250000000] s ∧
      Sound s := by
  have hrun : Run step RefillFits (start ⟨2, 100, 1⟩ 0)
      [.tryAcquire "" 0 0, .tryAcquire "" 0 50000000, .tryAcquire "" 50000000 250000000] _ :=
    Run.of_isSome (by decide)
  exact ⟨_, hrun.toFree, (refills_sound_iff hrun.toFree).mpr hrun⟩

/-- A refill interval of 0 is accepted, and the first call divides by it. -/
theorem refill_divides_by_zero :
    ∃ s, Run step free (start ⟨10, 0, 1⟩ 0) [.tryAcquire "" 0 0] s ∧
      s.refills.map RefillRecord.result = [.error .divisionByZero] ∧ ¬ Sound s := by
  refine ⟨_, Run.of_isSome (by decide), rfl, fun hsound => ?_⟩
  exact hsound _ (List.mem_singleton_self _)

end Ledger
end NexusTask
