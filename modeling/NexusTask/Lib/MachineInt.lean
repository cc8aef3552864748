import Mathlib.Algebra.Order.Ring.Int

/-!
# Signed 64-bit sums

The language does not say what a signed operation leaves whose result is not a value of its type.
Where a model has to go on all the same, it goes on with what two's complement hardware leaves,
the result modulo `2 ^ 64`.
-/

set_option autoImplicit false

namespace NexusTask

/-- `x` is a value of `int64_t`. -/
def InInt64 (x : Int) : Prop := -2 ^ 63 ≤ x ∧ x < 2 ^ 63

instance (x : Int) : Decidable (InInt64 x) := inferInstanceAs (Decidable (_ ∧ _))

/-- What is left of an operation that comes to `x`. -/
def wrapped (x : Int) : Int := x.bmod (2 ^ 64)

variable {x : Int}

theorem wrapped_of_inInt64 (h : InInt64 x) : wrapped x = x := by
  unfold InInt64 at h
  unfold wrapped
  apply Int.bmod_eq_of_le <;> omega

theorem wrapped_inInt64 (x : Int) : InInt64 (wrapped x) := by
  have hlow := Int.le_bmod (x := x) (m := 2 ^ 64) (by decide)
  have hhigh := Int.bmod_lt (x := x) (m := 2 ^ 64) (by decide)
  unfold wrapped InInt64
  constructor <;> omega

/-- What is too large comes out at least one turn smaller. -/
theorem wrapped_le (h : 2 ^ 63 ≤ x) : wrapped x ≤ x - 2 ^ 64 := by
  have hhigh := (wrapped_inInt64 x).2
  have hturns := Int.bmod_add_bdiv x (2 ^ 64)
  change wrapped x + _ = x at hturns
  omega

/-! ## Readings and milliseconds -/

/-- A clock reading in nanoseconds and a number of milliseconds after it, which become nanoseconds
before they are added. -/
def afterMillis (now millis : Int) : Int := wrapped (now + wrapped (millis * 1000000))

/-- The product and the sum can be had. -/
def MillisFit (now millis : Int) : Prop :=
  InInt64 (millis * 1000000) ∧ InInt64 (now + millis * 1000000)

instance (now millis : Int) : Decidable (MillisFit now millis) :=
  inferInstanceAs (Decidable (_ ∧ _))

theorem afterMillis_eq {now millis : Int} (h : MillisFit now millis) :
    afterMillis now millis = now + millis * 1000000 := by
  unfold afterMillis
  rw [wrapped_of_inInt64 h.1, wrapped_of_inInt64 h.2]

/-- Otherwise what is left is too early. -/
theorem afterMillis_lt {now millis : Int} (hnow : 0 ≤ now) (hpos : 0 < millis)
    (h : ¬ MillisFit now millis) : afterMillis now millis < now + millis * 1000000 := by
  unfold afterMillis
  by_cases hproduct : InInt64 (millis * 1000000)
  · have hsum : ¬ InInt64 (now + millis * 1000000) := fun hsum => h ⟨hproduct, hsum⟩
    rw [wrapped_of_inInt64 hproduct]
    have hle : wrapped (now + millis * 1000000) ≤ now + millis * 1000000 - 2 ^ 64 := by
      apply wrapped_le
      unfold InInt64 at hsum
      omega
    omega
  · have hle : wrapped (millis * 1000000) ≤ millis * 1000000 - 2 ^ 64 := by
      apply wrapped_le
      unfold InInt64 at hproduct
      omega
    obtain ⟨hwlow, hwhigh⟩ := wrapped_inInt64 (millis * 1000000)
    generalize wrapped (millis * 1000000) = p at hle hwlow hwhigh ⊢
    -- The sum itself can only be too large.
    by_cases hsum : InInt64 (now + p)
    · rw [wrapped_of_inInt64 hsum]
      omega
    · have hle' : wrapped (now + p) ≤ now + p - 2 ^ 64 := by
        apply wrapped_le
        unfold InInt64 at hsum
        omega
      omega

end NexusTask
