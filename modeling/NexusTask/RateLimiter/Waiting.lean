import NexusTask.Lib.History
import NexusTask.RateLimiter.Arithmetic
import NexusTask.RateLimiter.Crediting

/-!
# Waiting for a token

`wait_for_token` calls `try_acquire` until a call is granted. Any number of threads may be at it for
one category. No thread is promised a token, but between them they get one: calls that were denied
with no grant in between lie less than one refill interval apart. A thread that waits alone returns
at the latest with the first call that comes an interval after the last refill. That takes a limit
whose refill adds something and whose bucket can hold it; with any other an empty bucket stays
empty.

The refills are those of the machine. Where one of the category does not fit, nothing of this holds:
a product that wraps may add nothing at all.
-/

set_option autoImplicit false

namespace NexusTask

open Transition

/-- A refill of an empty bucket leaves a token in it. -/
structure RateLimit.Replenishes (l : RateLimit) : Prop where
  maxTokens : 0 < l.maxTokens
  refillInterval : 0 < l.refillInterval
  tokenRefillAmount : 0 < l.tokenRefillAmount

/-! ## One call -/

namespace TokenBucket

variable {b : TokenBucket} {now : Int}

theorem consume_limit (b : TokenBucket) : b.consume.2.limit = b.limit := by
  unfold consume
  split <;> rfl

theorem consume_lastRefill (b : TokenBucket) : b.consume.2.lastRefill = b.lastRefill := by
  unfold consume
  split <;> rfl

theorem consume_eq_false : b.consume.1 = false ↔ b.tokens = 0 := by
  unfold consume
  split
  next h => exact iff_of_false (by simp) (Nat.pos_iff_ne_zero.mp h)
  next h => exact iff_of_true rfl (Nat.eq_zero_of_not_pos h)

theorem refill_of_early (hle : b.lastRefill ≤ now) (h : now - b.lastRefill < b.limit.period) :
    b.refill now = b := by
  unfold refill
  dsimp only
  rw [if_neg]
  rw [due_iff hle]
  omega

/-- A call is denied exactly if the bucket is empty and no refill is due. -/
theorem denied_iff (h : b.limit.Replenishes) (hle : b.lastRefill ≤ now) :
    (b.refill now).consume.1 = false ↔ b.tokens = 0 ∧ now - b.lastRefill < b.limit.period := by
  rw [consume_eq_false]
  by_cases hdue : b.limit.period ≤ now - b.lastRefill
  · refine iff_of_false ?_ (by omega)
    have hadded := added_eq ⟨h.refillInterval, h.tokenRefillAmount⟩ hle
    have hperiod : 0 < b.limit.period := mul_pos h.refillInterval (by decide)
    have hone : 1 ≤ (now - b.lastRefill) / b.limit.period :=
      (Int.le_ediv_iff_mul_le hperiod).mpr (by omega)
    have hpos := mul_pos (Int.lt_of_lt_of_le Int.one_pos hone) h.tokenRefillAmount
    have hrefill : (b.refill now).tokens = min b.limit.maxTokens (b.tokens + b.added now) := by
      have hdue' := (due_iff hle).mpr hdue
      unfold refill added
      dsimp only
      rw [if_pos hdue', if_pos hdue']
    have hmax := h.maxTokens
    omega
  · rw [refill_of_early hle (by omega)]
    exact ⟨fun hzero => ⟨hzero, by omega⟩, fun hzero => hzero.1⟩

/-- A call that is denied leaves the bucket alone. -/
theorem denied_keeps (h : b.limit.Replenishes) (hle : b.lastRefill ≤ now)
    (hdenied : (b.refill now).consume.1 = false) : (b.refill now).consume.2 = b := by
  obtain ⟨hzero, hearly⟩ := (denied_iff h hle).mp hdenied
  rw [refill_of_early hle hearly]
  unfold consume
  rw [if_neg (by omega)]

/-- A limit whose refill is of use is valid, so a refill that fits is the one without bounds. -/
theorem machineRefill_of_replenishes (h : b.limit.Replenishes) (hle : b.lastRefill ≤ now)
    (hfits : b.Fits now) : b.machineRefill now = .ok (b.refill now) :=
  machineRefill_eq_refill ⟨h.refillInterval, le_of_lt h.tokenRefillAmount⟩ hle hfits

theorem machineRefill_limit {b' : TokenBucket} (h : b.machineRefill now = .ok b') :
    b'.limit = b.limit := by
  rcases machineRefill_cases h with rfl | rfl
  · rfl
  · rfl

end TokenBucket

/-- `try_acquire` with the refill of the machine. -/
def RateLimiter.machineTryAcquire (r : RateLimiter) (category : String) (made now : Int) :
    Except Fault (Bool × RateLimiter) :=
  match (r.getBucket category made).machineRefill now with
  | .error fault => .error fault
  | .ok b =>
      let (granted, b) := b.consume
      .ok (granted, { r with buckets := Function.update r.buckets category (some b) })

theorem RateLimiter.machineTryAcquire_eq_ok {r : RateLimiter} {category : String} {made now : Int}
    {granted : Bool} {r' : RateLimiter} :
    r.machineTryAcquire category made now = .ok (granted, r') ↔
      ∃ b, (r.getBucket category made).machineRefill now = .ok b ∧ b.consume.1 = granted ∧
        { r with buckets := Function.update r.buckets category (some b.consume.2) } = r' := by
  unfold machineTryAcquire
  cases (r.getBucket category made).machineRefill now with
  | error fault => simp
  | ok b => simp

/-! ## Many waiters -/

namespace Session

variable {category : String} {s t : Session}

/-- The readings of the calls that were denied since the last grant. -/
def waiting (category : String) (log : List Acquisition) : List Int :=
  log.foldl (fun readings e =>
    if e.category = category then if e.granted then [] else readings ++ [e.reading]
    else readings) []

theorem waiting_concat (log : List Acquisition) (e : Acquisition) :
    waiting category (log ++ [e]) =
      if e.category = category then
        if e.granted then [] else waiting category log ++ [e.reading]
      else waiting category log := List.foldl_concat ..

theorem waiting_of_not_asked (h : ¬ s.Asked category) : waiting category s.log = [] := by
  have hnone : ∀ log : List Acquisition, (∀ e ∈ log, e.category ≠ category) →
      waiting category log = [] := by
    intro log hlog
    induction log using List.reverseRecOn with
    | nil => rfl
    | append_singleton log e ih =>
      have he : e.category ≠ category := hlog e (by simp)
      rw [waiting_concat, if_neg he]
      exact ih fun e he => hlog e (List.mem_append_left _ he)
  exact hnone s.log fun e he hc => h ⟨e, he, hc⟩

/-- A denied call goes on waiting up to the next grant. -/
theorem mem_waiting {before mid : List Acquisition} {e : Acquisition} (hc : e.category = category)
    (hdenied : e.granted = false) (hmid : ∀ x ∈ mid, x.category = category → x.granted = false) :
    e.reading ∈ waiting category (before ++ e :: mid) := by
  induction mid using List.reverseRecOn with
  | nil =>
    rw [waiting_concat, if_pos hc, hdenied]
    exact List.mem_append_right _ (List.mem_singleton_self _)
  | append_singleton mid x ih =>
    have hrest := ih fun x hx => hmid x (List.mem_append_left _ hx)
    rw [← List.cons_append, ← List.append_assoc, waiting_concat]
    by_cases hx : x.category = category
    · rw [if_pos hx, hmid x (by simp) hx]
      exact List.mem_append_left _ hrest
    · rw [if_neg hx]
      exact hrest

/-- A denied call of the category comes less than `period` after each of those that wait. -/
def InTime (category : String) (period : Int) (before : List Acquisition) (e : Acquisition) :
    Prop :=
  e.category = category → e.granted = false → ∀ r ∈ waiting category before, e.reading - r < period

/-- A call, with the refill of the machine. There is no step where the refill faults. -/
def machineStep (s : Session) : Call → Option Session
  | .setLimit category limit now =>
      if s.clock ≤ now then
        some { s with limiter := s.limiter.setLimit category limit now, clock := now }
      else none
  | .tryAcquire category made now =>
      if s.clock ≤ made ∧ made ≤ now then
        match s.limiter.machineTryAcquire category made now with
        | .error _ => none
        | .ok (granted, limiter) =>
            some { limiter, clock := now, log := s.log ++ [{ category, reading := now, granted }] }
      else none

/-- The limit of `category` stays once it was asked for, and every refill for it fits. -/
def KeepsAndFits (category : String) (s : Session) (c : Call) : Prop :=
  KeepsLimit category s c ∧
    match c with
    | .setLimit _ _ _ => True
    | .tryAcquire asked made now => asked = category → (s.limiter.getBucket asked made).Fits now

instance (category : String) (s : Session) : (c : Call) → Decidable (KeepsAndFits category s c)
  | .setLimit _ _ _ => inferInstanceAs (Decidable (KeepsLimit category s _ ∧ True))
  | .tryAcquire asked made now =>
      inferInstanceAs (Decidable (KeepsLimit category s _ ∧
        (asked = category → (s.limiter.getBucket asked made).Fits now)))

/-- What is waiting has come since the last refill. -/
structure Patient (category : String) (s : Session) : Prop where
  recent : ∀ r ∈ waiting category s.log,
    ∃ b, s.limiter.buckets category = some b ∧ b.lastRefill ≤ r
  inTime : History.EachAfter (InTime category (s.limiter.limitOf category).period) s.log

/-- The invariant. The last refill was before now; and if a refill is of use, nobody waits long. -/
structure Waits (category : String) (s : Session) : Prop where
  past : ∀ b, s.limiter.buckets category = some b →
    b.tokens ≤ b.limit.maxTokens ∧ b.lastRefill ≤ s.clock
  patient : (s.limiter.limitOf category).Replenishes → Patient category s

theorem waits_start (defaultLimit : RateLimit) (now : Int) :
    Waits category (start defaultLimit now) where
  past _ hb := nomatch hb
  patient _ := ⟨fun _ hr => absurd hr List.not_mem_nil, History.eachAfter_nil⟩

/-- A category that nobody has asked for. -/
theorem patient_of_not_asked (h : ¬ s.Asked category) : Patient category s where
  recent r hr := by
    rw [waiting_of_not_asked h] at hr
    exact absurd hr List.not_mem_nil
  inTime before e after hsplit hc := absurd ⟨e, by simp [hsplit], hc⟩ h

/-- A call that leaves the category alone. -/
theorem Waits.frame (h : Waits category s)
    (hbucket : t.limiter.buckets category = s.limiter.buckets category)
    (hdefault : t.limiter.defaultLimit = s.limiter.defaultLimit) (hclock : s.clock ≤ t.clock)
    (hlog : t.log = s.log ∨ ∃ e, t.log = s.log ++ [e] ∧ e.category ≠ category) :
    Waits category t := by
  have hlimit : t.limiter.limitOf category = s.limiter.limitOf category := by
    unfold RateLimiter.limitOf
    rw [hbucket, hdefault]
  constructor
  · intro b hb
    obtain ⟨hcap, hlast⟩ := h.past b (hbucket ▸ hb)
    exact ⟨hcap, le_trans hlast hclock⟩
  · intro hl
    rw [hlimit] at hl
    obtain ⟨hrecent, hinTime⟩ := h.patient hl
    rcases hlog with hlog | ⟨e, hlog, he⟩
    · exact ⟨by rw [hlog, hbucket]; exact hrecent, by rw [hlog, hlimit]; exact hinTime⟩
    · constructor
      · rw [hlog, waiting_concat, if_neg he, hbucket]
        exact hrecent
      · rw [hlog, hlimit]
        exact History.eachAfter_concat.mpr ⟨hinTime, fun hc => absurd hc he⟩

/-- The bucket that is asked has at most `max_tokens` and was refilled before now. -/
theorem Waits.getBucket (h : Waits category s) {made : Int} (hmade : s.clock ≤ made) :
    (s.limiter.getBucket category made).tokens
        ≤ (s.limiter.getBucket category made).limit.maxTokens ∧
      (s.limiter.getBucket category made).lastRefill ≤ made ∧
      (s.limiter.getBucket category made).limit = s.limiter.limitOf category := by
  unfold RateLimiter.getBucket RateLimiter.limitOf
  cases hb : s.limiter.buckets category with
  | none => exact ⟨le_refl _, le_refl _, rfl⟩
  | some b =>
    obtain ⟨hcap, hlast⟩ := h.past b hb
    exact ⟨hcap, le_trans hlast hmade, rfl⟩

/-- A call for the category, whose refill `b` is. -/
theorem Waits.acquire (h : Waits category s) {made now : Int} {b : TokenBucket}
    (hmade : s.clock ≤ made) (hnow : made ≤ now)
    (hfits : (s.limiter.getBucket category made).Fits now)
    (hb : (s.limiter.getBucket category made).machineRefill now = .ok b) :
    Waits category ⟨{ s.limiter with
      buckets := Function.update s.limiter.buckets category (some b.consume.2) }, now,
      s.log ++ [⟨category, now, b.consume.1⟩]⟩ := by
  obtain ⟨hcap, hlast, hlimit⟩ := h.getBucket hmade
  have hpast : (s.limiter.getBucket category made).lastRefill ≤ now := le_trans hlast hnow
  obtain ⟨hcap', hlast'⟩ := TokenBucket.machineRefill_ok hcap hpast hb
  have hlimit' : b.consume.2.limit = s.limiter.limitOf category := by
    rw [TokenBucket.consume_limit, TokenBucket.machineRefill_limit hb, hlimit]
  constructor
  · intro b' hb'
    obtain rfl : b.consume.2 = b' := by simpa using hb'
    have hless := b.consume_spec.2
    rw [TokenBucket.consume_limit, TokenBucket.consume_lastRefill]
    exact ⟨by omega, hlast'⟩
  · intro hl
    have hsame : RateLimiter.limitOf { s.limiter with
        buckets := Function.update s.limiter.buckets category (some b.consume.2) } category
          = s.limiter.limitOf category := by
      simp [RateLimiter.limitOf, hlimit']
    change (RateLimiter.limitOf _ category).Replenishes at hl
    rw [hsame] at hl
    obtain ⟨hrecent, hinTime⟩ := h.patient hl
    -- What waits has come since the last refill of the bucket that is asked.
    have hsince : ∀ r ∈ waiting category s.log,
        (s.limiter.getBucket category made).lastRefill ≤ r := by
      intro r hr
      obtain ⟨b', hb', hle⟩ := hrecent r hr
      rw [RateLimiter.getBucket_eq hb']
      exact hle
    generalize s.limiter.getBucket category made = asked at hpast hlimit hfits hb hsince
    have hreplenishes : asked.limit.Replenishes := hlimit ▸ hl
    obtain rfl : asked.refill now = b := Except.ok.inj
      ((TokenBucket.machineRefill_of_replenishes hreplenishes hpast hfits).symm.trans hb)
    constructor
    · intro r hr
      change r ∈ waiting category (s.log ++ [_]) at hr
      rw [waiting_concat, if_pos rfl] at hr
      split at hr
      next => exact absurd hr List.not_mem_nil
      next hdenied =>
        have hkeeps := TokenBucket.denied_keeps hreplenishes hpast (Bool.eq_false_iff.mpr hdenied)
        refine ⟨asked, ?_, ?_⟩
        · rw [hkeeps]
          exact Function.update_self ..
        · rcases List.mem_append.mp hr with hr | hr
          · exact hsince r hr
          · rw [List.mem_singleton.mp hr]
            exact hpast
    · change History.EachAfter (InTime category (RateLimiter.limitOf _ category).period)
        (s.log ++ [_])
      rw [hsame]
      refine History.eachAfter_concat.mpr ⟨hinTime, ?_⟩
      intro _ hdenied r hr
      have hearly := ((TokenBucket.denied_iff hreplenishes hpast).mp hdenied).2
      have hle := hsince r hr
      rw [hlimit] at hearly
      show now - r < _
      omega

theorem waits_step : Preserved machineStep (KeepsAndFits category) (Waits category) := by
  intro s c t h hok hstep
  obtain ⟨hkeeps, hfits⟩ := hok
  cases c with
  | setLimit c limit now =>
    simp only [machineStep] at hstep
    split at hstep
    next hclock =>
      obtain rfl := Option.some.inj hstep
      by_cases hc : c = category
      · subst hc
        constructor
        · intro b hb
          obtain rfl : TokenBucket.new limit now = b := by
            simpa [RateLimiter.setLimit] using hb
          exact ⟨le_refl _, le_refl now⟩
        · intro _
          exact patient_of_not_asked (hkeeps rfl)
      · refine h.frame ?_ rfl hclock (.inl rfl)
        simp [RateLimiter.setLimit, Function.update_of_ne (Ne.symm hc)]
    next => exact absurd hstep (by simp)
  | tryAcquire c made now =>
    simp only [machineStep] at hstep
    split at hstep
    next hclock =>
      split at hstep
      next => exact absurd hstep (by simp)
      next granted limiter hacquire =>
        obtain rfl := Option.some.inj hstep
        obtain ⟨b, hb, rfl, rfl⟩ := RateLimiter.machineTryAcquire_eq_ok.mp hacquire
        by_cases hc : c = category
        · subst hc
          exact h.acquire hclock.1 hclock.2 (hfits rfl) hb
        · refine h.frame ?_ rfl (le_trans hclock.1 hclock.2) (.inr ⟨_, rfl, hc⟩)
          simp [Function.update_of_ne (Ne.symm hc)]
    next => exact absurd hstep (by simp)

/-- **Between them they get a token.** In any sequence of calls, by any threads and for any
categories, two calls for `category` that were denied with no grant for it in between lie less than
one refill interval apart, if a refill of its limit is of use, the limit was not set again once the
category was asked for, and the refills for it fit. -/
theorem denied_within_interval {category : String} {defaultLimit : RateLimit} {t₀ : Int}
    {s : Session} {calls : List Call}
    (run : Run machineStep (KeepsAndFits category) (start defaultLimit t₀) calls s)
    (hlimit : (s.limiter.limitOf category).Replenishes) {before mid after : List Acquisition}
    {e e' : Acquisition} (hlog : s.log = before ++ e :: (mid ++ e' :: after))
    (he : e.category = category ∧ e.granted = false)
    (he' : e'.category = category ∧ e'.granted = false)
    (hmid : ∀ x ∈ mid, x.category = category → x.granted = false) :
    e'.reading - e.reading < (s.limiter.limitOf category).refillInterval * 1000000 := by
  have hwaits : Waits category s := run.invariant waits_step (waits_start defaultLimit t₀)
  have hsplit : s.log = (before ++ e :: mid) ++ e' :: after := by
    rw [hlog, List.append_assoc, List.cons_append]
  have hinTime := (hwaits.patient hlimit).inTime (before ++ e :: mid) e' after hsplit
  exact hinTime he'.1 he'.2 e.reading (mem_waiting he.1 he.2 hmid)

/-- One token, and one more every 100 ms: of two waiters' calls at 10 and at 90 ms neither is
granted, and the one at 110 ms is. -/
theorem denied_within_interval_two :
    let calls : List Call := [.setLimit "test" ⟨1, 100, 1⟩ 0, .tryAcquire "test" 0 0,
      .tryAcquire "test" 10000000 10000000, .tryAcquire "" 20000000 20000000,
      .tryAcquire "test" 90000000 90000000, .tryAcquire "test" 110000000 110000000]
    ∃ s, Run machineStep (KeepsAndFits "test") (start ⟨100, 1000, 100⟩ 0) calls s ∧
      (90000000 : Int) - 10000000 < 100 * 1000000 := by
  intro calls
  have hrun : Run machineStep (KeepsAndFits "test") (start ⟨100, 1000, 100⟩ 0) calls
      ((exec machineStep (KeepsAndFits "test") (start ⟨100, 1000, 100⟩ 0) calls).get
        (by decide)) :=
    Run.of_isSome (by decide)
  refine ⟨_, hrun, ?_⟩
  have hlog : ((exec machineStep (KeepsAndFits "test") (start ⟨100, 1000, 100⟩ 0) calls).get
        (by decide)).log =
      [⟨"test", 0, true⟩] ++ ⟨"test", 10000000, false⟩ ::
        ([⟨"", 20000000, true⟩] ++ ⟨"test", 90000000, false⟩ :: [⟨"test", 110000000, true⟩]) := by
    decide
  exact denied_within_interval hrun ⟨by decide, by decide, by decide⟩ hlog ⟨rfl, rfl⟩ ⟨rfl, rfl⟩
    (by decide)

/-- An amount of 2^62 every millisecond: the call four intervals later multiplies 4 by it. -/
example : ¬ TokenBucket.Fits ⟨⟨10, 1, 2 ^ 62⟩, 0, 0⟩ 4000000 := by decide

end Session

/-! ## One waiter -/

namespace RateLimiter

/-- `wait_for_token` with nobody else about: the limiter when it returns, `none` while it waits. Its
calls of `try_acquire` come at the given readings. -/
def waitForToken (r : RateLimiter) (category : String) :
    List Int → Except Fault (Option RateLimiter)
  | [] => .ok none
  | now :: rest =>
      match r.machineTryAcquire category now now with
      | .error fault => .error fault
      | .ok (granted, r') => if granted then .ok (some r') else r'.waitForToken category rest

variable {r : RateLimiter} {category : String} {b : TokenBucket} {readings : List Int}

/-- The calls return, and the last of them was granted. -/
def Returns (r : RateLimiter) (category : String) (readings : List Int) : Prop :=
  ∃ r', r.waitForToken category readings = .ok (some r')

theorem not_returns_nil (r : RateLimiter) (category : String) : ¬ r.Returns category [] := by
  rintro ⟨r', h⟩
  exact absurd h (by simp [waitForToken])

/-- The wait begins with a call whose refill `b'` is. -/
theorem returns_cons {b' : TokenBucket} {now : Int} (hb : r.buckets category = some b)
    (hrefill : b.machineRefill now = .ok b') :
    r.Returns category (now :: readings) ↔ b'.consume.1 = true ∨
      Returns { r with buckets := Function.update r.buckets category (some b'.consume.2) } category
        readings := by
  have hcons : r.waitForToken category (now :: readings) =
      if b'.consume.1 then .ok (some { r with
        buckets := Function.update r.buckets category (some b'.consume.2) })
      else waitForToken { r with
        buckets := Function.update r.buckets category (some b'.consume.2) } category readings := by
    rw [waitForToken, machineTryAcquire, getBucket_eq hb, hrefill]
  unfold Returns
  rw [hcons]
  cases b'.consume.1 with
  | true => simp
  | false => simp

/-- Where the refills fit, a call that comes an interval after the last refill ends the wait, if
none before it has. -/
theorem returns_of_due (hb : r.buckets category = some b) (hl : b.limit.Replenishes)
    (hfits : ∀ now ∈ readings, b.lastRefill ≤ now ∧ b.Fits now)
    (hdue : ∃ now ∈ readings, b.lastRefill + b.limit.period ≤ now) :
    r.Returns category readings := by
  induction readings with
  | nil =>
    obtain ⟨now, hnow, _⟩ := hdue
    exact absurd hnow List.not_mem_nil
  | cons now readings ih =>
    obtain ⟨hle, hfit⟩ := hfits now List.mem_cons_self
    rw [returns_cons hb (TokenBucket.machineRefill_of_replenishes hl hle hfit)]
    cases hgranted : (b.refill now).consume.1 with
    | true => exact .inl rfl
    | false =>
      -- The limiter is what it was, and this call was not the one that is due.
      have hearly := ((TokenBucket.denied_iff hl hle).mp hgranted).2
      rw [TokenBucket.denied_keeps hl hle hgranted, ← hb, Function.update_eq_self]
      refine .inr (ih (fun now hnow => hfits now (List.mem_cons_of_mem _ hnow)) ?_)
      obtain ⟨last, hlast, hlate⟩ := hdue
      rcases List.mem_cons.mp hlast with rfl | hlast
      · omega
      · exact ⟨last, hlast, hlate⟩

/-- A bucket with a token in it. -/
theorem returns_of_token (hb : r.buckets category = some b) (hv : b.limit.Valid)
    (htoken : 0 < b.tokens) (hcap : b.tokens ≤ b.limit.maxTokens)
    (hfits : ∀ now ∈ readings, b.lastRefill ≤ now ∧ b.Fits now) (hsome : readings ≠ []) :
    r.Returns category readings := by
  cases readings with
  | nil => exact absurd rfl hsome
  | cons now readings =>
    obtain ⟨hle, hfit⟩ := hfits now List.mem_cons_self
    rw [returns_cons hb (TokenBucket.machineRefill_eq_refill hv hle hfit)]
    have hgranted : (b.refill now).consume.1 = true := by
      rw [← Bool.not_eq_false, TokenBucket.consume_eq_false]
      unfold TokenBucket.refill
      dsimp only
      split
      · show ¬ min b.limit.maxTokens (b.tokens + _) = 0
        omega
      · show ¬ b.tokens = 0
        omega
    exact .inl hgranted

/-- An empty bucket that no refill puts a token into. -/
theorem not_returns_of_empty (hb : r.buckets category = some b) (hempty : b.tokens = 0)
    (hvain : b.limit.maxTokens = 0 ∨ b.limit.tokenRefillAmount = 0) :
    ¬ r.Returns category readings := by
  induction readings generalizing r b with
  | nil => exact not_returns_nil r category
  | cons now readings ih =>
    cases hrefill : b.machineRefill now with
    | error fault =>
      rintro ⟨r', h⟩
      unfold waitForToken machineTryAcquire at h
      rw [getBucket_eq hb, hrefill] at h
      exact absurd h (by simp)
    | ok b' =>
      have hzero : b'.tokens = 0 := by
        rcases TokenBucket.machineRefill_cases hrefill with rfl | rfl
        · exact hempty
        · show min b.limit.maxTokens (b.wrappedSum now) = 0
          rcases hvain with hmax | hamount
          · rw [hmax, Nat.zero_min]
          · have hsum : b.wrappedSum now = 0 := by
              unfold TokenBucket.wrappedSum TokenBucket.product
              rw [hempty, hamount, mul_zero]
              rfl
            rw [hsum, Nat.min_zero]
      rw [returns_cons hb hrefill, TokenBucket.consume_eq_false.mpr hzero]
      rintro (hgranted | hrest)
      · exact absurd hgranted (by simp)
      · refine ih (Function.update_self ..) ?_ ?_ hrest
        · unfold TokenBucket.consume
          rw [if_neg (by omega)]
          exact hzero
        · rw [TokenBucket.consume_limit, TokenBucket.machineRefill_limit hrefill]
          exact hvain

/-- **When the wait ends.** A thread waits alone on a bucket with a positive interval and an amount
that is not negative, and one of its calls comes an interval after the last refill. Where the
refills at its calls fit, it has returned by then, exactly if there was a token or the limit allows
one and its refills add some. -/
theorem waitForToken_returns_iff (hb : r.buckets category = some b) (hv : b.limit.Valid)
    (hcap : b.tokens ≤ b.limit.maxTokens)
    (hfits : ∀ now ∈ readings, b.lastRefill ≤ now ∧ b.Fits now)
    (hdue : ∃ now ∈ readings, b.lastRefill + b.limit.period ≤ now) :
    r.Returns category readings ↔
      0 < b.tokens ∨ 0 < b.limit.maxTokens ∧ 0 < b.limit.tokenRefillAmount := by
  constructor
  · intro hreturns
    by_contra hnot
    rw [not_or, not_and_or] at hnot
    obtain ⟨hempty, hvain⟩ := hnot
    have hamount := hv.2
    exact not_returns_of_empty hb (by omega) (by omega) hreturns
  · rintro (htoken | ⟨hmax, hamount⟩)
    · apply returns_of_token hb hv htoken hcap hfits
      rintro rfl
      obtain ⟨now, hnow, _⟩ := hdue
      exact List.not_mem_nil hnow
    · exact returns_of_due hb ⟨hmax, hv.1, hamount⟩ hfits hdue

/-- A limiter whose bucket is empty and is refilled every second. -/
def emptied : RateLimiter where
  defaultLimit := ⟨10, 1000, 1⟩
  limits _ := none
  buckets := Function.update (fun _ => none) "test" (some ⟨⟨10, 1000, 1⟩, 0, 0⟩)

/-- Its calls come at 10 ms, at half a second and after a second. -/
theorem waitForToken_returns_iff_emptied :
    emptied.Returns "test" [10000000, 500000000, 1000000000] ↔ 0 < 0 ∨ 0 < 10 ∧ (0 : Int) < 1 :=
  waitForToken_returns_iff (b := ⟨⟨10, 1000, 1⟩, 0, 0⟩) (by simp [emptied])
    (by unfold RateLimit.Valid; decide) (by decide) (by decide) (by decide)

end RateLimiter
end NexusTask
