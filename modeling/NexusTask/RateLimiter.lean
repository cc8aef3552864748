import Mathlib.Algebra.Order.Ring.Int
import Mathlib.Tactic.Linarith
import NexusTask.Lib.Run

/-!
# `RateLimiter`

A token bucket for each category. Clock readings are nanosecond counts; the interval and the amount
of a `RateLimit` are millisecond counts. Every call holds the mutex, so the calls of all threads are
one sequence, with clock readings that never decrease.

What bounds the tokens granted in a window is how far `last_refill` has come since the window
opened: the refills in between add for disjoint stretches of time, and the part of an interval that
a refill does not count is lost.
-/

set_option autoImplicit false

namespace NexusTask

open Transition

structure RateLimit where
  maxTokens : Nat
  refillInterval : Int
  tokenRefillAmount : Int
  deriving DecidableEq

structure TokenBucket where
  limit : RateLimit
  tokens : Nat
  lastRefill : Int
  deriving DecidableEq

structure RateLimiter where
  defaultLimit : RateLimit
  limits : String → Option RateLimit
  buckets : String → Option TokenBucket

/-- A bucket just made: it is full. -/
def TokenBucket.new (limit : RateLimit) (now : Int) : TokenBucket :=
  { limit, tokens := limit.maxTokens, lastRefill := now }

/-- The refill of `try_acquire`. The elapsed time is cut down to milliseconds first. -/
def TokenBucket.refill (b : TokenBucket) (now : Int) : TokenBucket :=
  let elapsed := (now - b.lastRefill).tdiv 1000000
  if elapsed ≥ b.limit.refillInterval then
    let tokensToAdd := (elapsed.tdiv b.limit.refillInterval * b.limit.tokenRefillAmount).toNat
    { b with tokens := min b.limit.maxTokens (b.tokens + tokensToAdd), lastRefill := now }
  else b

def TokenBucket.consume (b : TokenBucket) : Bool × TokenBucket :=
  if b.tokens > 0 then (true, { b with tokens := b.tokens - 1 }) else (false, b)

namespace RateLimiter

def new (defaultLimit : RateLimit) : RateLimiter :=
  { defaultLimit, limits := fun _ => none, buckets := fun _ => none }

def setLimit (r : RateLimiter) (category : String) (limit : RateLimit) (now : Int) : RateLimiter :=
  { r with limits := Function.update r.limits category (some limit),
           buckets := Function.update r.buckets category (some (.new limit now)) }

/-- `get_bucket`; it reads the clock if it has to make the bucket. -/
def getBucket (r : RateLimiter) (category : String) (now : Int) : TokenBucket :=
  match r.buckets category with
  | none => .new r.defaultLimit now
  | some b => b

/-- `made` is the clock reading of `get_bucket`, `now` the one after it. -/
def tryAcquire (r : RateLimiter) (category : String) (made now : Int) : Bool × RateLimiter :=
  let (granted, b) := ((r.getBucket category made).refill now).consume
  (granted, { r with buckets := Function.update r.buckets category (some b) })

/-- The limit a category is under. -/
def limitOf (r : RateLimiter) (category : String) : RateLimit :=
  match r.buckets category with
  | none => r.defaultLimit
  | some b => b.limit

end RateLimiter

/-! ## Sequences of calls -/

structure Acquisition where
  category : String
  reading : Int
  granted : Bool
  deriving DecidableEq

/-- The limiter, the last clock reading, and the calls of `try_acquire` so far. -/
structure Session where
  limiter : RateLimiter
  clock : Int
  log : List Acquisition

namespace Session

inductive Call
  | setLimit (category : String) (limit : RateLimit) (now : Int)
  | tryAcquire (category : String) (made now : Int)
  deriving DecidableEq

def start (defaultLimit : RateLimit) (now : Int) : Session :=
  { limiter := .new defaultLimit, clock := now, log := [] }

def step (s : Session) : Call → Option Session
  | .setLimit category limit now =>
      if s.clock ≤ now then
        some { s with limiter := s.limiter.setLimit category limit now, clock := now }
      else none
  | .tryAcquire category made now =>
      if s.clock ≤ made ∧ made ≤ now then
        let (granted, limiter) := s.limiter.tryAcquire category made now
        some { limiter, clock := now, log := s.log ++ [{ category, reading := now, granted }] }
      else none

/-- The category was asked for. -/
def Asked (s : Session) (category : String) : Prop := ∃ e ∈ s.log, e.category = category

/-- How many calls for the category were granted at readings in `[first, last]`. -/
def grants (s : Session) (category : String) (first last : Int) : Nat :=
  s.log.countP fun e => e.category = category ∧ first ≤ e.reading ∧ e.reading ≤ last ∧ e.granted = true

/-- The limit of `category` is not set again once the category was asked for. -/
def KeepsLimit (category : String) (s : Session) : Call → Prop
  | .setLimit c _ _ => c = category → ¬ s.Asked category
  | .tryAcquire _ _ _ => True

instance (s : Session) (category : String) : Decidable (s.Asked category) :=
  inferInstanceAs (Decidable (∃ e ∈ s.log, e.category = category))

instance (category : String) (s : Session) : (c : Call) → Decidable (KeepsLimit category s c)
  | .setLimit c _ _ => inferInstanceAs (Decidable (c = category → ¬ s.Asked category))
  | .tryAcquire _ _ _ => .isTrue trivial

end Session

/-! ## One bucket -/

/-- The interval is positive and the amount is not negative. -/
def RateLimit.Valid (l : RateLimit) : Prop := 0 < l.refillInterval ∧ 0 ≤ l.tokenRefillAmount

/-- The refill interval in nanoseconds. -/
def RateLimit.period (l : RateLimit) : Int := l.refillInterval * 1000000

/-- The most calls a window of length `span` may grant. -/
def RateLimit.allowance (l : RateLimit) (span : Int) : Int :=
  l.maxTokens + (span / l.period + 1) * l.tokenRefillAmount

namespace TokenBucket

/-- What a refill at `now` does to a bucket. -/
structure Refilled (b b' : TokenBucket) (now : Int) : Prop where
  limit : b'.limit = b.limit
  added : ∃ m : Nat, (b'.tokens : Int) ≤ b.tokens + m * b.limit.tokenRefillAmount ∧
    m * b.limit.period ≤ b'.lastRefill - b.lastRefill
  recent : now - b'.lastRefill < b.limit.period
  le_now : b'.lastRefill ≤ now
  capped : b.tokens ≤ b.limit.maxTokens → b'.tokens ≤ b.limit.maxTokens

theorem refill_spec {b : TokenBucket} {now : Int} (hv : b.limit.Valid) (hle : b.lastRefill ≤ now) :
    Refilled b (b.refill now) now := by
  obtain ⟨hinterval, hamount⟩ := hv
  have hspan : 0 ≤ now - b.lastRefill := by omega
  have helapsed : (now - b.lastRefill).tdiv 1000000 = (now - b.lastRefill) / 1000000 :=
    Int.tdiv_eq_ediv_of_nonneg hspan
  have hdiv := Int.mul_ediv_add_emod (now - b.lastRefill) 1000000
  have hmod := Int.emod_nonneg (now - b.lastRefill) (b := 1000000) (by decide)
  have hmod' := Int.emod_lt_of_pos (now - b.lastRefill) (b := 1000000) (by decide)
  have hperiod : b.limit.period = b.limit.refillInterval * 1000000 := rfl
  unfold refill
  rw [helapsed]
  generalize (now - b.lastRefill) / 1000000 = elapsed at *
  dsimp only
  split
  next hdue =>
    have hpos : 0 ≤ elapsed := by omega
    have hcount : elapsed.tdiv b.limit.refillInterval = elapsed / b.limit.refillInterval :=
      Int.tdiv_eq_ediv_of_nonneg hpos
    have hcount0 : 0 ≤ elapsed / b.limit.refillInterval := Int.ediv_nonneg hpos (by omega)
    have hwhole : elapsed / b.limit.refillInterval * b.limit.refillInterval ≤ elapsed :=
      Int.ediv_mul_le _ (by omega)
    rw [hcount]
    generalize elapsed / b.limit.refillInterval = count at *
    obtain ⟨m, rfl⟩ := Int.eq_ofNat_of_zero_le hcount0
    refine ⟨rfl, ⟨m, ?_, ?_⟩, ?_, le_refl _, fun _ => Nat.min_le_left _ _⟩
    · have hadd : ((m * b.limit.tokenRefillAmount).toNat : Int) = m * b.limit.tokenRefillAmount :=
        Int.toNat_of_nonneg (mul_nonneg hcount0 hamount)
      have hmin := Nat.min_le_right b.limit.maxTokens
        (b.tokens + (m * b.limit.tokenRefillAmount).toNat)
      show ((min _ _ : Nat) : Int) ≤ _
      omega
    · show (m : Int) * b.limit.period ≤ now - b.lastRefill
      rw [hperiod]
      nlinarith
    · show now - now < b.limit.period
      omega
  next hearly =>
    exact ⟨rfl, ⟨0, by simp, by simp⟩, by omega, hle, fun h => h⟩

/-- `b` after granting `granted` calls in a window that opened at `first`: since then `last_refill`
has come far enough for the `k` intervals these tokens came from. -/
def Covers (b : TokenBucket) (first : Int) (granted : Nat) : Prop :=
  ∃ k : Nat, (granted + b.tokens : Int) ≤ b.limit.maxTokens + k * b.limit.tokenRefillAmount ∧
    k * b.limit.period < b.lastRefill - first + b.limit.period

/-- What is known of the window `[first, last]` at a time `clock`: no call in it was granted, or it
is still open and covered, or it is over and kept to its allowance. -/
def Window (b : TokenBucket) (clock first last : Int) (granted : Nat) : Prop :=
  granted = 0 ∨ b.lastRefill ≤ last ∧ b.Covers first granted ∨
    last < clock ∧ granted ≤ b.limit.allowance (last - first)

variable {b : TokenBucket} {clock first last now : Int} {granted : Nat}

/-- `k` periods that fit before the end of the window, but for the one it opened in. -/
theorem Covers.le_allowance (hv : b.limit.Valid) (h : b.Covers first granted)
    (hlast : b.lastRefill ≤ last) : (granted : Int) ≤ b.limit.allowance (last - first) := by
  obtain ⟨k, htokens, hk⟩ := h
  obtain ⟨hinterval, hamount⟩ := hv
  have hperiod : 0 < b.limit.period := by unfold RateLimit.period; omega
  have hfit : (k - 1 : Int) ≤ (last - first) / b.limit.period := by
    rw [Int.le_ediv_iff_mul_le hperiod]
    nlinarith
  have hadd : (k : Int) * b.limit.tokenRefillAmount
      ≤ ((last - first) / b.limit.period + 1) * b.limit.tokenRefillAmount :=
    mul_le_mul_of_nonneg_right (by omega) hamount
  unfold RateLimit.allowance
  omega

theorem Window.le_allowance (hv : b.limit.Valid) (h : b.Window clock first last granted)
    (hle : first ≤ last) : (granted : Int) ≤ b.limit.allowance (last - first) := by
  rcases h with hzero | ⟨hlast, hcovers⟩ | ⟨_, hdone⟩
  · obtain ⟨hinterval, hamount⟩ := hv
    have hperiod : 0 < b.limit.period := by unfold RateLimit.period; omega
    have hspan : 0 ≤ (last - first) / b.limit.period := Int.ediv_nonneg (by omega) (by omega)
    have hadd := mul_nonneg (by omega : 0 ≤ (last - first) / b.limit.period + 1) hamount
    unfold RateLimit.allowance
    omega
  · exact hcovers.le_allowance hv hlast
  · exact hdone

theorem Window.later {clock' : Int} (h : b.Window clock first last granted) (hle : clock ≤ clock') :
    b.Window clock' first last granted := by
  rcases h with hzero | hopen | ⟨hover, hdone⟩
  · exact .inl hzero
  · exact .inr (.inl hopen)
  · exact .inr (.inr ⟨by omega, hdone⟩)

/-- A call at `now` that leaves `b'` and counts `counted` towards the window. -/
theorem Window.acquire {b' : TokenBucket} {counted : Nat} (hv : b.limit.Valid)
    (hcap : b.tokens ≤ b.limit.maxTokens) (h : b.Window clock first last granted)
    (hnow : clock ≤ now) (hr : Refilled b b' now)
    {tokens : Nat} (hspend : tokens + counted ≤ b'.tokens)
    (hin : counted = 0 ∨ first ≤ now ∧ now ≤ last) :
    TokenBucket.Window { b' with tokens } now first last (granted + counted) := by
  obtain ⟨m, hadded, hfar⟩ := hr.added
  have hlimit := hr.limit
  have hrecent := hr.recent
  have hle := hr.le_now
  have hcapped := hr.capped hcap
  by_cases hover : last < now
  · -- The window is over: nothing counts any more.
    obtain rfl : counted = 0 := by omega
    rcases h with hzero | ⟨hlast, hcovers⟩ | ⟨_, hdone⟩
    · exact .inl hzero
    · refine .inr (.inr ⟨hover, ?_⟩)
      show ((granted + 0 : Nat) : Int) ≤ b'.limit.allowance (last - first)
      rw [hlimit]
      exact hcovers.le_allowance hv hlast
    · refine .inr (.inr ⟨hover, ?_⟩)
      show ((granted + 0 : Nat) : Int) ≤ b'.limit.allowance (last - first)
      rw [hlimit]
      exact hdone
  · rcases h with rfl | ⟨hlast, k, htokens, hk⟩ | ⟨hdone, _⟩
    · by_cases hopen : first ≤ now
      · -- The first call in the window finds at most `max_tokens`.
        refine .inr (.inl ⟨by show b'.lastRefill ≤ last; omega, 0, ?_, ?_⟩)
        · show ((0 + counted : Nat) + tokens : Int) ≤ b'.limit.maxTokens + (0 : Nat) * _
          rw [hlimit]
          push_cast
          omega
        · show ((0 : Nat) : Int) * _ < b'.lastRefill - first + b'.limit.period
          rw [hlimit]
          push_cast
          omega
      · exact .inl (by omega)
    · refine .inr (.inl ⟨by show b'.lastRefill ≤ last; omega, k + m, ?_, ?_⟩)
      · show ((granted + counted : Nat) + tokens : Int)
          ≤ b'.limit.maxTokens + (k + m : Nat) * b'.limit.tokenRefillAmount
        rw [hlimit]
        push_cast
        rw [add_mul]
        omega
      · show ((k + m : Nat) : Int) * b'.limit.period < b'.lastRefill - first + b'.limit.period
        rw [hlimit]
        push_cast
        rw [add_mul]
        omega
    · omega

theorem consume_spec (b : TokenBucket) :
    b.consume.2 = { b with tokens := b.consume.2.tokens } ∧
      b.consume.2.tokens + (if b.consume.1 then 1 else 0) ≤ b.tokens := by
  unfold consume
  split
  next h => exact ⟨rfl, by simp; omega⟩
  next => exact ⟨rfl, by simp⟩

end TokenBucket

/-! ## The window over a sequence of calls -/

namespace Session

variable {category : String} {first last : Int} {s t : Session}

/-- The bucket of the category, made now if it has none, keeps to the window. -/
def Bounded (category : String) (first last : Int) (s : Session) : Prop :=
  ∀ now, s.clock ≤ now → (s.limiter.getBucket category now).limit.Valid →
    (s.limiter.getBucket category now).tokens ≤ (s.limiter.getBucket category now).limit.maxTokens ∧
    (s.limiter.getBucket category now).lastRefill ≤ now ∧
    (s.limiter.getBucket category now).Window s.clock first last (s.grants category first last)

theorem grants_eq_zero (h : ¬ s.Asked category) : s.grants category first last = 0 := by
  refine List.countP_eq_zero.mpr fun e he hcount => h ⟨e, he, ?_⟩
  exact (of_decide_eq_true hcount).1

theorem grants_append {limiter : RateLimiter} {clock : Int} {e : Acquisition} :
    grants { limiter, clock, log := s.log ++ [e] } category first last
      = s.grants category first last
        + if e.category = category ∧ first ≤ e.reading ∧ e.reading ≤ last ∧ e.granted = true
          then 1 else 0 := by
  simp [grants, List.countP_append, List.countP_singleton]

theorem bounded_start (defaultLimit : RateLimit) (now : Int) :
    Bounded category first last (start defaultLimit now) := fun _ _ _ =>
  ⟨le_refl _, le_refl _, .inl rfl⟩

/-- A bucket just made, in a window in which nothing was granted. -/
theorem bounded_fresh (limit : RateLimit) {now : Int}
    (hbucket : ∀ u, s.limiter.getBucket category u = .new limit now) (hclock : now ≤ s.clock)
    (hzero : s.grants category first last = 0) : Bounded category first last s := by
  intro u hu _
  rw [hbucket u]
  exact ⟨le_refl _, le_trans hclock hu, .inl hzero⟩

/-- A call that leaves the category's bucket alone. -/
theorem Bounded.frame (h : Bounded category first last s)
    (hbucket : ∀ u, t.limiter.getBucket category u = s.limiter.getBucket category u)
    (hclock : s.clock ≤ t.clock)
    (hgrants : t.grants category first last = s.grants category first last) :
    Bounded category first last t := by
  intro u hu hv
  rw [hbucket u] at hv ⊢
  obtain ⟨hcap, hlast, hwindow⟩ := h u (le_trans hclock hu) hv
  rw [hgrants]
  exact ⟨hcap, hlast, hwindow.later hclock⟩

/-- A call for the category: its bucket is refilled, then one token is spent if there is one. -/
theorem Bounded.acquire {made now : Int} (h : Bounded category first last s)
    (hmade : s.clock ≤ made) (hnow : made ≤ now) :
    Bounded category first last {
      limiter := (s.limiter.tryAcquire category made now).2, clock := now,
      log := s.log ++ [{ category, reading := now,
                         granted := (s.limiter.tryAcquire category made now).1 }] } := by
  intro u hu hv
  have hbucket : (s.limiter.tryAcquire category made now).2.getBucket category u
      = ((s.limiter.getBucket category made).refill now).consume.2 := by
    simp [RateLimiter.tryAcquire, RateLimiter.getBucket]
  have hgranted : (s.limiter.tryAcquire category made now).1
      = ((s.limiter.getBucket category made).refill now).consume.1 := rfl
  obtain ⟨hrest, hspend⟩ :=
    TokenBucket.consume_spec ((s.limiter.getBucket category made).refill now)
  rw [grants_append, hgranted]
  rw [hbucket] at hv ⊢
  rw [hrest] at hv ⊢
  -- Neither the refill nor the token spent touches the limit.
  have hlimit : ((s.limiter.getBucket category made).refill now).limit
      = (s.limiter.getBucket category made).limit := by
    unfold TokenBucket.refill
    dsimp only
    split <;> rfl
  have hv' : (s.limiter.getBucket category made).limit.Valid := hlimit ▸ hv
  obtain ⟨hcap, hlast, hwindow⟩ := h made hmade hv'
  have hrefilled := TokenBucket.refill_spec hv' (le_trans hlast hnow)
  refine ⟨?_, le_trans hrefilled.le_now hu, hwindow.acquire hv' hcap (le_trans hmade hnow)
    hrefilled ?_ ?_⟩
  · have hcapped := hrefilled.capped hcap
    show ((s.limiter.getBucket category made).refill now).consume.2.tokens
      ≤ ((s.limiter.getBucket category made).refill now).limit.maxTokens
    rw [hlimit]
    omega
  · refine le_trans ?_ hspend
    refine Nat.add_le_add_left ?_ _
    split
    next hin => rw [if_pos hin.2.2.2]
    next => exact Nat.zero_le _
  · split
    next hin => exact .inr ⟨hin.2.1, hin.2.2.1⟩
    next => exact .inl rfl

theorem bounded_step :
    Preserved step (KeepsLimit category) (Bounded category first last) := by
  intro s c t h hok hstep
  cases c with
  | setLimit c limit now =>
    simp only [step] at hstep
    split at hstep
    next hclock =>
      obtain rfl := Option.some.inj hstep
      by_cases hc : c = category
      · subst hc
        refine bounded_fresh limit (fun u => ?_) (le_refl now) ?_
        · simp [RateLimiter.setLimit, RateLimiter.getBucket]
        · exact grants_eq_zero (s := s) (hok rfl)
      · refine h.frame (fun u => ?_) hclock rfl
        simp [RateLimiter.setLimit, RateLimiter.getBucket, Function.update_of_ne (Ne.symm hc)]
    next => exact absurd hstep (by simp)
  | tryAcquire c made now =>
    simp only [step] at hstep
    split at hstep
    next hclock =>
      obtain rfl := Option.some.inj hstep
      by_cases hc : c = category
      · subst hc
        exact h.acquire hclock.1 hclock.2
      · refine h.frame (fun u => ?_) (le_trans hclock.1 hclock.2) ?_
        · simp [RateLimiter.tryAcquire, RateLimiter.getBucket, Function.update_of_ne (Ne.symm hc)]
        · rw [grants_append]
          simp [hc]
    next => exact absurd hstep (by simp)

/-- **The rate limit.** For any default limit and any sequence of calls with readings that do not
decrease, in which the limit of `category` is not set again once the category was asked for: the
calls for it granted in a window are at most `max_tokens` and one refill amount for each interval
that begins in the window or before it. -/
theorem grants_le {category : String} {defaultLimit : RateLimit} {t₀ : Int} {s : Session}
    {calls : List Call} (run : Run step (KeepsLimit category) (start defaultLimit t₀) calls s)
    (hinterval : 0 < (s.limiter.limitOf category).refillInterval)
    (hamount : 0 ≤ (s.limiter.limitOf category).tokenRefillAmount) {first last : Int}
    (hle : first ≤ last) :
    (s.grants category first last : Int) ≤ (s.limiter.limitOf category).maxTokens +
      ((last - first) / ((s.limiter.limitOf category).refillInterval * 1000000) + 1)
        * (s.limiter.limitOf category).tokenRefillAmount := by
  have hlimit : (s.limiter.getBucket category s.clock).limit = s.limiter.limitOf category := by
    unfold RateLimiter.getBucket RateLimiter.limitOf
    cases s.limiter.buckets category <;> rfl
  have hv : (s.limiter.getBucket category s.clock).limit.Valid := by
    rw [hlimit]
    exact ⟨hinterval, hamount⟩
  have hbounded : Bounded category first last s :=
    run.invariant bounded_step (bounded_start defaultLimit t₀)
  obtain ⟨_, _, hwindow⟩ := hbounded s.clock (le_refl _) hv
  have hallowed := hwindow.le_allowance hv hle
  rw [hlimit] at hallowed
  exact hallowed

/-- Two tokens, one more every 100 ms: five calls in 110 ms, of which three are granted, in a window
that allows `2 + (1 + 1) * 1`. -/
theorem grants_le_five :
    let calls : List Call := [.setLimit "test" ⟨2, 100, 1⟩ 0, .tryAcquire "test" 0 0,
      .tryAcquire "test" 0 0, .tryAcquire "test" 1 1, .tryAcquire "" 1 2,
      .tryAcquire "test" 110000000 110000000, .tryAcquire "test" 110000000 110000000]
    ∃ s, Run step (KeepsLimit "test") (start ⟨100, 1000, 100⟩ 0) calls s ∧
      s.grants "test" 0 110000000 = 3 ∧ (s.grants "test" 0 110000000 : Int) ≤ 2 + (1 + 1) * 1 := by
  intro calls
  have hrun : Run step (KeepsLimit "test") (start ⟨100, 1000, 100⟩ 0) calls _ :=
    Run.of_isSome (by decide)
  refine ⟨_, hrun, by decide, ?_⟩
  exact grants_le hrun (by decide) (by decide) (by decide)

end Session
end NexusTask
