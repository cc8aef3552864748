import NexusTask.RateLimiter

/-!
# What polling does to the tokens credited

A call that is denied leaves the limiter as it was: a refill that is due adds a token at least, and
with one the call is granted. So polls that are denied change nothing, however often they come. A
call that is granted is another matter. Where it refills, `last_refill` becomes the reading itself,
and the part of an interval the refill did not count is gone; `lost` adds these parts up, and what
was credited falls short of the whole time as soon as they come to an interval.
-/

set_option autoImplicit false

namespace NexusTask

/-! ## One refill -/

namespace TokenBucket

/-- The tokens a refill adds to the count, before it is cut to `max_tokens`. -/
def added (b : TokenBucket) (now : Int) : Nat :=
  let elapsed := (now - b.lastRefill).tdiv 1000000
  if elapsed ≥ b.limit.refillInterval then
    (elapsed.tdiv b.limit.refillInterval * b.limit.tokenRefillAmount).toNat
  else 0

/-- The cap cuts nothing off the refill. -/
def Uncapped (b : TokenBucket) (now : Int) : Prop := b.tokens + b.added now ≤ b.limit.maxTokens

instance (b : TokenBucket) (now : Int) : Decidable (b.Uncapped now) :=
  inferInstanceAs (Decidable (_ ≤ _))

/-- The interval and the amount are positive. -/
def Refills (b : TokenBucket) : Prop :=
  0 < b.limit.refillInterval ∧ 0 < b.limit.tokenRefillAmount

variable {b : TokenBucket} {now : Int}

theorem Refills.period_pos (h : b.Refills) : 0 < b.limit.period :=
  mul_pos h.1 (by decide)

/-- A refill is due once a whole interval is over. -/
theorem due_iff (hle : b.lastRefill ≤ now) :
    (now - b.lastRefill).tdiv 1000000 ≥ b.limit.refillInterval ↔
      b.limit.period ≤ now - b.lastRefill := by
  rw [Int.tdiv_eq_ediv_of_nonneg (by omega)]
  exact Int.le_ediv_iff_mul_le (by decide)

/-- It counts the whole intervals. -/
theorem added_eq (h : b.Refills) (hle : b.lastRefill ≤ now) :
    (b.added now : Int) = (now - b.lastRefill) / b.limit.period * b.limit.tokenRefillAmount := by
  have hspan : 0 ≤ now - b.lastRefill := by omega
  have hwhole : 0 ≤ (now - b.lastRefill) / b.limit.period :=
    Int.ediv_nonneg hspan (le_of_lt h.period_pos)
  unfold added
  dsimp only
  split
  next hdue =>
    have hcount : ((now - b.lastRefill).tdiv 1000000).tdiv b.limit.refillInterval
        = (now - b.lastRefill) / b.limit.period := by
      rw [Int.tdiv_eq_ediv_of_nonneg hspan,
        Int.tdiv_eq_ediv_of_nonneg (Int.ediv_nonneg hspan (by decide)),
        Int.ediv_ediv_of_nonneg (by decide), mul_comm]
      rfl
    rw [hcount, Int.toNat_of_nonneg (mul_nonneg hwhole (le_of_lt h.2))]
  next hearly =>
    rw [due_iff hle] at hearly
    rw [Int.ediv_eq_zero_of_lt hspan (by omega), zero_mul]
    rfl

/-- What an uncapped refill leaves. -/
theorem refill_eq (hle : b.lastRefill ≤ now) (hcap : b.Uncapped now) :
    b.refill now = { b with
      tokens := b.tokens + b.added now
      lastRefill := if b.limit.period ≤ now - b.lastRefill then now else b.lastRefill } := by
  unfold Uncapped added at hcap
  unfold refill added
  dsimp only at hcap ⊢
  by_cases hdue : (now - b.lastRefill).tdiv 1000000 ≥ b.limit.refillInterval
  · rw [if_pos hdue] at hcap ⊢
    rw [if_pos hdue, if_pos ((due_iff hle).mp hdue), Nat.min_eq_right hcap]
  · rw [if_neg hdue, if_neg hdue, if_neg fun h => hdue ((due_iff hle).mpr h)]
    rfl

theorem consume_tokens (b : TokenBucket) :
    b.consume.2 = { b with tokens := b.consume.2.tokens } ∧
      b.consume.2.tokens + (if b.consume.1 then 1 else 0) = b.tokens := by
  unfold consume
  split
  next h => exact ⟨rfl, Nat.sub_add_cancel h⟩
  next => exact ⟨rfl, rfl⟩

/-- A call that finds no token has refilled nothing. -/
theorem denied_unchanged (h : b.Refills) (hle : b.lastRefill ≤ now) (hcap : b.Uncapped now)
    (hdenied : (b.refill now).consume.1 = false) : (b.refill now).consume.2 = b := by
  have htokens : (b.refill now).tokens = 0 := by
    unfold consume at hdenied
    split at hdenied
    next => exact absurd hdenied (by simp)
    next hnone => exact Nat.eq_zero_of_not_pos hnone
  have hrefill := refill_eq hle hcap
  have hadded := added_eq h hle
  rw [hrefill] at htokens
  have hearly : ¬ b.limit.period ≤ now - b.lastRefill := by
    intro hdue
    have hone : 1 ≤ (now - b.lastRefill) / b.limit.period :=
      (Int.le_ediv_iff_mul_le h.period_pos).mpr (by omega)
    have htoken := mul_pos (Int.lt_of_lt_of_le Int.one_pos hone) h.2
    have hsum : b.tokens + b.added now = 0 := htokens
    omega
  have hkeep : b.refill now = b := by
    have hzero : b.added now = 0 := Nat.eq_zero_of_add_eq_zero_left htokens
    rw [hrefill, if_neg hearly, hzero]
    rfl
  have hnone : ¬ b.tokens > 0 := by
    have hsum : b.tokens + b.added now = 0 := htokens
    omega
  rw [hkeep, consume, if_neg hnone]

end TokenBucket

/-! ## A sequence of calls for one category -/

namespace RateLimiter

/-- The calls of `try_acquire` at the given readings. -/
def polls (r : RateLimiter) (category : String) : List Int → List Acquisition × RateLimiter
  | [] => ([], r)
  | now :: rest =>
      let (granted, r') := r.tryAcquire category now now
      let (log, r'') := r'.polls category rest
      ({ category, reading := now, granted } :: log, r'')

/-- The tokens credited by the calls: those that are there at the end and those taken. -/
def credited (r : RateLimiter) (category : String) (readings : List Int) : Nat :=
  let (log, r') := r.polls category readings
  (r'.buckets category).elim 0 (·.tokens) + log.countP (·.granted)

/-- The cap cuts nothing off any of the refills. -/
def Uncapped (r : RateLimiter) (category : String) : List Int → Prop
  | [] => True
  | now :: rest => (r.getBucket category now).Uncapped now ∧
      (r.tryAcquire category now now).2.Uncapped category rest

instance decidableUncapped (r : RateLimiter) (category : String) :
    (readings : List Int) → Decidable (r.Uncapped category readings)
  | [] => .isTrue trivial
  | now :: rest =>
      have := decidableUncapped (r.tryAcquire category now now).2 category rest
      inferInstanceAs (Decidable (_ ∧ _))

end RateLimiter

/-- Two sequences of calls that differ in calls that were denied only. -/
inductive SameButDenied (category : String) : List Acquisition → List Acquisition → Prop
  | nil : SameButDenied category [] []
  | call {log log' : List Acquisition} (reading : Int) (granted granted' : Bool) :
      SameButDenied category log log' →
        SameButDenied category ({ category, reading, granted } :: log)
          ({ category, reading, granted := granted' } :: log')
  | left {log log' : List Acquisition} (reading : Int) : SameButDenied category log log' →
      SameButDenied category ({ category, reading, granted := false } :: log) log'
  | right {log log' : List Acquisition} (reading : Int) : SameButDenied category log log' →
      SameButDenied category log ({ category, reading, granted := false } :: log')

/-! ## The time that is lost -/

/-- The whole intervals that are counted by refills at the first reading an interval after the last
one, and then by one at `last`. -/
def counted (period start : Int) : List Int → Int → Int
  | [], last => (last - start) / period
  | now :: rest, last =>
      if period ≤ now - start then (now - start) / period + counted period now rest last
      else counted period start rest last

/-- The parts of an interval these refills leave over, with what is left at `last`. -/
def lost (period start : Int) : List Int → Int → Int
  | [], last => (last - start) % period
  | now :: rest, last =>
      if period ≤ now - start then (now - start) % period + lost period now rest last
      else lost period start rest last

theorem counted_add_lost (period start : Int) (readings : List Int) (last : Int) :
    period * counted period start readings last + lost period start readings last
      = last - start := by
  induction readings generalizing start with
  | nil => exact Int.mul_ediv_add_emod ..
  | cons now rest ih =>
    unfold counted lost
    split
    next =>
      have hnow := Int.mul_ediv_add_emod (now - start) period
      have hrest := ih now
      rw [mul_add]
      omega
    next => exact ih start

theorem lost_nonneg {period : Int} (hperiod : 0 < period) (start : Int) (readings : List Int)
    (last : Int) : 0 ≤ lost period start readings last := by
  induction readings generalizing start with
  | nil => exact Int.emod_nonneg _ (by omega)
  | cons now rest ih =>
    have hnow := Int.emod_nonneg (now - start) (b := period) (by omega)
    have hrest := ih now
    unfold lost
    split
    next => omega
    next => exact ih start

/-- Every whole interval is counted as long as less than one is lost. -/
theorem counted_eq_iff {period : Int} (hperiod : 0 < period) (start : Int) (readings : List Int)
    (last : Int) :
    counted period start readings last = (last - start) / period ↔
      lost period start readings last < period := by
  have hsum := counted_add_lost period start readings last
  have hpos := lost_nonneg hperiod start readings last
  rw [← hsum, Int.mul_add_ediv_left _ _ (by omega)]
  constructor
  · intro hcounted
    refine Int.not_le.mp fun hle => ?_
    have hone : 1 ≤ lost period start readings last / period :=
      (Int.le_ediv_iff_mul_le hperiod).mpr (by omega)
    omega
  · intro hless
    rw [Int.ediv_eq_zero_of_lt hpos hless, add_zero]

/-! ## Two runs -/

namespace RateLimiter

variable {r : RateLimiter} {category : String} {b : TokenBucket} {now last : Int}
  {readings readings' : List Int}

/-- A call for a category that has its bucket. -/
theorem tryAcquire_eq (hb : r.buckets category = some b) (made : Int) :
    r.tryAcquire category made now = ((b.refill now).consume.1,
      { r with buckets := Function.update r.buckets category (some (b.refill now).consume.2) }) := by
  simp only [tryAcquire, getBucket, hb]

theorem getBucket_eq (hb : r.buckets category = some b) : r.getBucket category now = b := by
  simp only [getBucket, hb]

/-- A denied call leaves the limiter as it was. -/
theorem tryAcquire_denied (hb : r.buckets category = some b) (h : b.Refills)
    (hle : b.lastRefill ≤ now) (hcap : b.Uncapped now)
    (hdenied : (r.tryAcquire category now now).1 = false) :
    (r.tryAcquire category now now).2 = r := by
  rw [tryAcquire_eq hb] at hdenied ⊢
  rw [TokenBucket.denied_unchanged h hle hcap hdenied, ← hb, Function.update_eq_self]

/-- What a call does to its bucket. -/
theorem tryAcquire_spec (hb : r.buckets category = some b) (hle : b.lastRefill ≤ now)
    (hcap : b.Uncapped now) :
    ∃ b', (r.tryAcquire category now now).2.buckets category = some b' ∧ b'.limit = b.limit ∧
      b'.lastRefill = (if b.limit.period ≤ now - b.lastRefill then now else b.lastRefill) ∧
      b'.tokens + (if (r.tryAcquire category now now).1 then 1 else 0)
        = b.tokens + b.added now := by
  obtain ⟨hspent, htokens⟩ := (b.refill now).consume_tokens
  rw [tryAcquire_eq hb]
  refine ⟨_, Function.update_self .., ?_⟩
  rw [TokenBucket.refill_eq hle hcap] at hspent htokens ⊢
  rw [hspent]
  exact ⟨rfl, rfl, htokens⟩

/-- The readings never decrease, from the last refill on. -/
def Ordered (r : RateLimiter) (category : String) (readings : List Int) : Prop :=
  ∃ b, r.buckets category = some b ∧ b.Refills ∧ (b.lastRefill :: readings).Pairwise (· ≤ ·)

/-- The last refill is where it was or at the reading. -/
theorem pairwise_last {p : Prop} [Decidable p] {start : Int}
    (h : (start :: now :: readings).Pairwise (· ≤ ·)) :
    ((if p then now else start) :: readings).Pairwise (· ≤ ·) := by
  split
  next => exact (List.pairwise_cons.mp h).2
  next => exact h.sublist ((List.sublist_cons_self now readings).cons_cons start)

theorem Ordered.acquire (h : r.Ordered category (now :: readings))
    (hcap : r.Uncapped category (now :: readings)) :
    (r.tryAcquire category now now).2.Ordered category readings := by
  obtain ⟨b, hb, hrefills, hpairwise⟩ := h
  have hle : b.lastRefill ≤ now := (List.pairwise_cons.mp hpairwise).1 now List.mem_cons_self
  obtain ⟨b', hb', hlimit, hlast, _⟩ := tryAcquire_spec hb hle (getBucket_eq hb ▸ hcap.1)
  refine ⟨b', hb', by rw [TokenBucket.Refills, hlimit]; exact hrefills, ?_⟩
  rw [hlast]
  exact pairwise_last hpairwise

/-- The first entry of a log is that of the first call. -/
theorem polls_eq_cons {reading : Int} {granted : Bool} {log : List Acquisition}
    (h : (r.polls category readings).1 = { category, reading, granted } :: log) :
    ∃ rest, readings = reading :: rest ∧ (r.tryAcquire category reading reading).1 = granted ∧
      ((r.tryAcquire category reading reading).2.polls category rest).1 = log := by
  cases readings with
  | nil => exact absurd h.symm (List.cons_ne_nil _ _)
  | cons now rest =>
    obtain ⟨hfirst, hrest⟩ := List.cons.inj h
    obtain ⟨_, rfl, hgranted⟩ := Acquisition.mk.inj hfirst
    exact ⟨rest, rfl, hgranted, hrest⟩

/-- A poll that is denied can be left out. -/
theorem polls_denied {reading : Int} {log : List Acquisition}
    (hlog : (r.polls category readings).1 = { category, reading, granted := false } :: log)
    (hordered : r.Ordered category readings) (hcap : r.Uncapped category readings) :
    ∃ rest, (r.polls category readings).2 = (r.polls category rest).2 ∧
      (r.polls category rest).1 = log ∧ r.Ordered category rest ∧ r.Uncapped category rest := by
  obtain ⟨rest, rfl, hdenied, hrest⟩ := polls_eq_cons hlog
  have hordered' := hordered.acquire hcap
  have hcap' := hcap.2
  obtain ⟨b, hb, hrefills, hpairwise⟩ := hordered
  have hle : b.lastRefill ≤ reading :=
    (List.pairwise_cons.mp hpairwise).1 reading List.mem_cons_self
  have hsame := tryAcquire_denied hb hrefills hle (getBucket_eq hb ▸ hcap.1) hdenied
  rw [hsame] at hordered' hcap' hrest
  refine ⟨rest, ?_, hrest, hordered', hcap'⟩
  show ((r.tryAcquire category reading reading).2.polls category rest).2 = _
  rw [hsame]

/-- **Denied polls.** Two sequences that differ in denied calls only come to the same limiter, and
the same calls are granted. -/
theorem polls_sameButDenied {log log' : List Acquisition} (hsame : SameButDenied category log log')
    (hlog : (r.polls category readings).1 = log) (hlog' : (r.polls category readings').1 = log')
    (hordered : r.Ordered category readings) (hordered' : r.Ordered category readings')
    (hcap : r.Uncapped category readings) (hcap' : r.Uncapped category readings') :
    (r.polls category readings).2 = (r.polls category readings').2 ∧
      log.filter (·.granted) = log'.filter (·.granted) := by
  induction hsame generalizing r readings readings' with
  | nil =>
    cases readings with
    | nil =>
      cases readings' with
      | nil => exact ⟨rfl, rfl⟩
      | cons now rest => exact absurd hlog' (List.cons_ne_nil _ _)
    | cons now rest => exact absurd hlog (List.cons_ne_nil _ _)
  | call reading granted granted' _ ih =>
    obtain ⟨rest, rfl, rfl, hrest⟩ := polls_eq_cons hlog
    obtain ⟨rest', rfl, rfl, hrest'⟩ := polls_eq_cons hlog'
    obtain ⟨hend, hgranted⟩ := ih hrest hrest' (hordered.acquire hcap) (hordered'.acquire hcap')
      hcap.2 hcap'.2
    refine ⟨hend, ?_⟩
    rw [List.filter_cons, List.filter_cons, hgranted]
  | left reading _ ih =>
    obtain ⟨rest, hend, hrest, hordered, hcap⟩ := polls_denied hlog hordered hcap
    obtain ⟨hend', hgranted⟩ := ih hrest hlog' hordered hordered' hcap hcap'
    exact ⟨hend.trans hend', hgranted⟩
  | right reading _ ih =>
    obtain ⟨rest, hend, hrest, hordered', hcap'⟩ := polls_denied hlog' hordered' hcap'
    obtain ⟨hend', hgranted⟩ := ih hlog hrest hordered hordered' hcap hcap'
    exact ⟨hend'.trans hend.symm, hgranted⟩

/-- The tokens credited are the whole intervals counted, times the amount. -/
theorem credited_eq (hb : r.buckets category = some b) (h : b.Refills)
    (hordered : (b.lastRefill :: (readings ++ [last])).Pairwise (· ≤ ·))
    (hcap : r.Uncapped category (readings ++ [last])) :
    (r.credited category (readings ++ [last]) : Int) = b.tokens
      + counted b.limit.period b.lastRefill readings last * b.limit.tokenRefillAmount := by
  induction readings generalizing r b with
  | nil =>
    have hle : b.lastRefill ≤ last := (List.pairwise_cons.mp hordered).1 last List.mem_cons_self
    obtain ⟨b', hb', _, _, htokens⟩ := tryAcquire_spec hb hle (getBucket_eq hb ▸ hcap.1)
    have hadded := TokenBucket.added_eq h hle
    have hcredited : r.credited category ([] ++ [last]) = b.tokens + b.added last := by
      rw [← htokens]
      simp [credited, polls, hb', List.countP_cons]
    rw [hcredited]
    unfold counted
    push_cast
    rw [hadded]
  | cons now rest ih =>
    have hle : b.lastRefill ≤ now := (List.pairwise_cons.mp hordered).1 now List.mem_cons_self
    obtain ⟨b', hb', hlimit, hlast, htokens⟩ :=
      tryAcquire_spec hb hle (getBucket_eq hb ▸ hcap.1)
    have hadded := TokenBucket.added_eq h hle
    have hrest := ih hb' (by rw [TokenBucket.Refills, hlimit]; exact h)
      (hlast ▸ pairwise_last hordered) hcap.2
    have hcredited : r.credited category (now :: rest ++ [last])
        = (r.tryAcquire category now now).2.credited category (rest ++ [last])
          + if (r.tryAcquire category now now).1 then 1 else 0 := by
      simp [credited, polls, List.countP_cons, Nat.add_assoc]
    rw [hcredited]
    push_cast
    rw [hrest, hlimit, hlast]
    have htotal : (b'.tokens : Int) + (if (r.tryAcquire category now now).1 then 1 else 0)
        = b.tokens + (now - b.lastRefill) / b.limit.period * b.limit.tokenRefillAmount := by
      rw [← hadded]
      exact_mod_cast htokens
    rw [counted]
    by_cases hdue : b.limit.period ≤ now - b.lastRefill
    · rw [if_pos hdue, if_pos hdue, add_mul]
      omega
    · have hnone : (now - b.lastRefill) / b.limit.period = 0 :=
        Int.ediv_eq_zero_of_lt (by omega) (by omega)
      rw [hnone, zero_mul] at htotal
      rw [if_neg hdue, if_neg hdue]
      omega

/-- **What is credited.** Two runs from one empty bucket that differ in denied calls only, each with
a call at `last`, are credited the same and granted the same calls. That it is the amount for every
whole interval from the start to `last` holds exactly if the parts of an interval that the refills
leave over come to less than an interval. -/
theorem denied_polls_credit (hb : r.buckets category = some b)
    (hinterval : 0 < b.limit.refillInterval) (hamount : 0 < b.limit.tokenRefillAmount)
    (hempty : b.tokens = 0)
    (hordered : (b.lastRefill :: (readings ++ [last])).Pairwise (· ≤ ·))
    (hordered' : (b.lastRefill :: (readings' ++ [last])).Pairwise (· ≤ ·))
    (hsame : SameButDenied category (r.polls category (readings ++ [last])).1
      (r.polls category (readings' ++ [last])).1)
    (hcap : r.Uncapped category (readings ++ [last]))
    (hcap' : r.Uncapped category (readings' ++ [last])) :
    r.credited category (readings ++ [last]) = r.credited category (readings' ++ [last]) ∧
    (r.polls category (readings ++ [last])).1.filter (·.granted)
      = (r.polls category (readings' ++ [last])).1.filter (·.granted) ∧
    ((r.credited category (readings ++ [last]) : Int) = (last - b.lastRefill)
        / (b.limit.refillInterval * 1000000) * b.limit.tokenRefillAmount ↔
      lost b.limit.period b.lastRefill readings last < b.limit.period) := by
  have hrefills : b.Refills := ⟨hinterval, hamount⟩
  obtain ⟨hend, hgranted⟩ := polls_sameButDenied hsame rfl rfl ⟨b, hb, hrefills, hordered⟩
    ⟨b, hb, hrefills, hordered'⟩ hcap hcap'
  refine ⟨?_, hgranted, ?_⟩
  · simp only [credited, hend, List.countP_eq_length_filter, hgranted]
  · rw [credited_eq hb hrefills hordered hcap, hempty, Nat.cast_zero, zero_add,
      ← counted_eq_iff hrefills.period_pos]
    exact mul_left_inj' (by omega)

/-- One token every second, ten at most, and none yet. -/
def everySecond : RateLimiter where
  defaultLimit := ⟨10, 1000, 1⟩
  limits _ := none
  buckets _ := some { limit := ⟨10, 1000, 1⟩, tokens := 0, lastRefill := 0 }

/-- Two polls in vain before a call at 2 s: two tokens are credited, with them or without. -/
theorem denied_polls_credit_two :
    everySecond.credited "" [2000000000] = everySecond.credited "" [10000000, 500000000, 2000000000] ∧
      (everySecond.credited "" [2000000000] : Int) = (2000000000 - 0) / (1000 * 1000000) * 1 := by
  have hall := @denied_polls_credit everySecond "" _ 2000000000 [] [10000000, 500000000] rfl
    (by decide) (by decide) rfl (by decide) (by decide)
    (.right _ (.right _ (.call _ _ _ .nil))) (by decide) (by decide)
  exact ⟨hall.1, hall.2.2.mpr (by decide)⟩

/-- A call is granted at 1.5 s. Of the two seconds to the call at 2 s one is credited, whether there
was a poll in vain at 0.1 s or not. -/
theorem remainder_lost :
    SameButDenied "" (everySecond.polls "" [1500000000, 2000000000]).1
      (everySecond.polls "" [100000000, 1500000000, 2000000000]).1 ∧
    everySecond.Uncapped "" [1500000000, 2000000000] ∧
    everySecond.Uncapped "" [100000000, 1500000000, 2000000000] ∧
    everySecond.credited "" [1500000000, 2000000000] = 1 ∧
    everySecond.credited "" [100000000, 1500000000, 2000000000] = 1 ∧
    ¬ (everySecond.credited "" [1500000000, 2000000000] : Int)
      = (2000000000 - 0) / (1000 * 1000000) * 1 :=
  ⟨.right _ (.call _ _ _ (.call _ _ _ .nil)), by decide, by decide, by decide, by decide, by decide⟩

end RateLimiter
end NexusTask
