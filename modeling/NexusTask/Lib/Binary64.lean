import Mathlib.Data.Int.Log
import Mathlib.Data.Rat.Floor
import Mathlib.RingTheory.Int.Basic
import Mathlib.Tactic.FieldSimp
import Mathlib.Tactic.Linarith
import Mathlib.Tactic.Ring

/-!
# Rounding to a `double`

`nearest x` is the `double` nearest to a positive rational, of two equally near the one with the
even mantissa. The exponent is not bounded here, so this is the IEEE result where that is in the
normal range.

What is proved needs little of it: the mantissa is within one half of the scaled number, so nothing
that is a `double` is passed over by rounding. And a quotient of two doubles is never half-way
between two of them, which makes the bounds of a rounded quotient exact.
-/

set_option autoImplicit false

namespace Binary64

/-! ## To an integer -/

/-- The nearest integer, the even one of two. -/
def roundEven (z : ℚ) : ℤ := if Even ⌊z⌋ then ⌈z - 1 / 2⌉ else ⌊z + 1 / 2⌋

theorem sub_half_le_roundEven (z : ℚ) : z - 1 / 2 ≤ roundEven z := by
  unfold roundEven
  split
  · exact Int.le_ceil _
  · have h := Int.lt_floor_add_one (z + 1 / 2)
    linarith

theorem roundEven_le_add_half (z : ℚ) : roundEven z ≤ z + 1 / 2 := by
  unfold roundEven
  split
  · have h := Int.ceil_lt_add_one (z - 1 / 2)
    linarith
  · exact Int.floor_le _

theorem le_roundEven {j : ℤ} {z : ℚ} (h : j ≤ z) : j ≤ roundEven z := by
  have hnear := sub_half_le_roundEven z
  have hlt : (j : ℚ) < roundEven z + 1 := by linarith
  exact Int.lt_add_one_iff.mp (by exact_mod_cast hlt)

theorem roundEven_le {j : ℤ} {z : ℚ} (h : z ≤ j) : roundEven z ≤ j := by
  have hnear := roundEven_le_add_half z
  have hlt : (roundEven z : ℚ) < j + 1 := by linarith
  exact Int.lt_add_one_iff.mp (by exact_mod_cast hlt)

theorem le_roundEven_iff {j : ℤ} {z : ℚ} (h : z ≠ j - 1 / 2) : j ≤ roundEven z ↔ j - 1 / 2 < z := by
  constructor
  · intro hle
    have hle' : (j : ℚ) ≤ roundEven z := by exact_mod_cast hle
    have hnear := roundEven_le_add_half z
    exact lt_of_le_of_ne (by linarith) h.symm
  · intro hlt
    have hnear := sub_half_le_roundEven z
    have hlt' : (j : ℚ) < roundEven z + 1 := by linarith
    exact Int.lt_add_one_iff.mp (by exact_mod_cast hlt')

theorem roundEven_le_iff {j : ℤ} {z : ℚ} (h : z ≠ j + 1 / 2) : roundEven z ≤ j ↔ z < j + 1 / 2 := by
  constructor
  · intro hle
    have hle' : (roundEven z : ℚ) ≤ j := by exact_mod_cast hle
    have hnear := sub_half_le_roundEven z
    exact lt_of_le_of_ne (by linarith) h
  · intro hlt
    have hnear := roundEven_le_add_half z
    have hlt' : (roundEven z : ℚ) < j + 1 := by linarith
    exact Int.lt_add_one_iff.mp (by exact_mod_cast hlt')

/-! ## To a double -/

/-- The unit in the last place of the doubles about `x`. -/
def ulp (x : ℚ) : ℚ := 2 ^ (Int.log 2 x - 52)

def nearest (x : ℚ) : ℚ := roundEven (x / ulp x) * ulp x

/-- 53 bits and an exponent. -/
def IsDouble (y : ℚ) : Prop := ∃ (i : ℕ) (s : ℤ), i ≤ 2 ^ 53 ∧ y = i * 2 ^ s

variable {x y a b : ℚ}

theorem ulp_pos (x : ℚ) : 0 < ulp x := zpow_pos (by norm_num) _

theorem le_scaled (hx : 0 < x) : 2 ^ 52 ≤ x / ulp x := by
  rw [le_div_iff₀ (ulp_pos x), ulp, zpow_sub₀ (by norm_num)]
  have h := Int.zpow_log_le_self (b := 2) (by norm_num) hx
  push_cast at h
  linarith [h]

theorem scaled_lt (x : ℚ) : x / ulp x < 2 ^ 53 := by
  rw [div_lt_iff₀ (ulp_pos x), ulp, zpow_sub₀ (by norm_num)]
  have h := Int.lt_zpow_succ_log_self (b := 2) (by norm_num) x
  rw [zpow_add₀ (by norm_num)] at h
  push_cast at h
  linarith [h]

/-- A power of two is a multiple of every smaller one. -/
theorem exists_zpow_eq_mul {e s : ℤ} (h : e ≤ s) : ∃ k : ℕ, (2 : ℚ) ^ s = k * 2 ^ e := by
  obtain ⟨k, hk⟩ := Int.eq_ofNat_of_zero_le (Int.sub_nonneg_of_le h)
  refine ⟨2 ^ k, ?_⟩
  obtain rfl : s = k + e := by omega
  rw [zpow_add₀ (by norm_num), zpow_natCast]
  push_cast
  rfl

theorem isDouble_natCast {n : ℕ} (h : n ≤ 2 ^ 53) : IsDouble n := ⟨n, 0, h, by simp⟩

theorem nearest_zero : nearest 0 = 0 := by
  have h : roundEven 0 = 0 :=
    le_antisymm (roundEven_le (by norm_num)) (le_roundEven (by norm_num))
  rw [nearest, zero_div, h, Int.cast_zero, zero_mul]

theorem isDouble_nearest (hx : 0 < x) : IsDouble (nearest x) := by
  have hlow : (2 ^ 52 : ℤ) ≤ roundEven (x / ulp x) := le_roundEven (by exact_mod_cast le_scaled hx)
  have hhigh : roundEven (x / ulp x) ≤ (2 ^ 53 : ℤ) :=
    roundEven_le (by exact_mod_cast (scaled_lt x).le)
  obtain ⟨i, hi⟩ := Int.eq_ofNat_of_zero_le (show 0 ≤ roundEven (x / ulp x) by omega)
  refine ⟨i, Int.log 2 x - 52, by omega, ?_⟩
  rw [nearest, hi, Int.cast_natCast]
  rfl

/-- A double with smaller units is no more than the least with these. -/
theorem mul_zpow_le {i : ℕ} {s e : ℤ} (hi : i ≤ 2 ^ 53) (h : s < e) :
    (i : ℚ) * 2 ^ s ≤ 2 ^ 52 * 2 ^ e := by
  have hpow : (2 : ℚ) ^ (s + 1) ≤ 2 ^ e := zpow_le_zpow_right₀ (by norm_num) h
  have hi' : (i : ℚ) ≤ 2 ^ 53 := by exact_mod_cast hi
  have hs : (0 : ℚ) < 2 ^ s := zpow_pos (by norm_num) _
  calc (i : ℚ) * 2 ^ s ≤ 2 ^ 53 * 2 ^ s := mul_le_mul_of_nonneg_right hi' hs.le
    _ = 2 ^ 52 * 2 ^ (s + 1) := by rw [zpow_add_one₀ (by norm_num)]; ring
    _ ≤ 2 ^ 52 * 2 ^ e := mul_le_mul_of_nonneg_left hpow (by norm_num)

/-- A double is either a whole number of the units about `x`, or below all the doubles there. -/
theorem IsDouble.cases (hy : IsDouble y) (x : ℚ) :
    (∃ j : ℤ, y = j * ulp x) ∨ y ≤ 2 ^ 52 * ulp x := by
  obtain ⟨i, s, hi, rfl⟩ := hy
  rcases lt_or_ge s (Int.log 2 x - 52) with hlt | hge
  · exact .inr (mul_zpow_le hi hlt)
  · obtain ⟨k, hk⟩ := exists_zpow_eq_mul hge
    refine .inl ⟨i * k, ?_⟩
    rw [hk, ulp]
    push_cast
    ring

/-- A double below `x` stays below. -/
theorem le_nearest (hy : IsDouble y) (hx : 0 < x) (h : y ≤ x) : y ≤ nearest x := by
  have hu := ulp_pos x
  have hscaled : ∀ j : ℤ, (j : ℚ) ≤ x / ulp x → j * ulp x ≤ nearest x := by
    intro j hj
    have hround : (j : ℚ) ≤ roundEven (x / ulp x) := by exact_mod_cast le_roundEven hj
    exact mul_le_mul_of_nonneg_right hround hu.le
  rcases hy.cases x with ⟨j, rfl⟩ | hsmall
  · exact hscaled j ((le_div_iff₀ hu).mpr h)
  · have hleast := hscaled (2 ^ 52) (by exact_mod_cast le_scaled hx)
    exact hsmall.trans (by exact_mod_cast hleast)

/-- A double above `x` stays above. -/
theorem nearest_le (hy : IsDouble y) (hx : 0 < x) (h : x ≤ y) : nearest x ≤ y := by
  have hu := ulp_pos x
  have hscaled : ∀ j : ℤ, x / ulp x ≤ j → nearest x ≤ j * ulp x := by
    intro j hj
    have hround : (roundEven (x / ulp x) : ℚ) ≤ j := by exact_mod_cast roundEven_le hj
    exact mul_le_mul_of_nonneg_right hround hu.le
  rcases hy.cases x with ⟨j, rfl⟩ | hsmall
  · exact hscaled j ((div_le_iff₀ hu).mpr h)
  · -- Then `x` is the least of the doubles about it.
    have hleast := (le_div_iff₀ hu).mp (le_scaled hx)
    have hx' : x = y := le_antisymm h (hsmall.trans hleast)
    have hround := hscaled (2 ^ 52) (by
      rw [div_le_iff₀ hu]
      exact_mod_cast h.trans hsmall)
    calc nearest x ≤ 2 ^ 52 * ulp x := by exact_mod_cast hround
      _ ≤ y := by rw [← hx']; exact hleast

theorem nearest_eq (hy : IsDouble y) (hpos : 0 < y) : nearest y = y :=
  le_antisymm (nearest_le hy hpos le_rfl) (le_nearest hy hpos le_rfl)

theorem nearest_natCast {n : ℕ} (h : n ≤ 2 ^ 53) : nearest n = n := by
  rcases Nat.eq_zero_or_pos n with rfl | hpos
  · exact_mod_cast nearest_zero
  · exact nearest_eq (isDouble_natCast h) (by exact_mod_cast hpos)

/-! ## Rounding a quotient -/

/-- An odd factor is not made up by a power of two. -/
theorem dvd_of_mul_zpow_eq {d i k : ℤ} {p q : ℤ} (hd : Odd d)
    (h : (i : ℚ) * 2 ^ p = d * k * 2 ^ q) : d ∣ i := by
  have hne : ∀ e : ℤ, (2 : ℚ) ^ e ≠ 0 := fun e => zpow_ne_zero e (by norm_num)
  rcases Int.le_total p q with hpq | hpq
  · obtain ⟨l, hl⟩ := exists_zpow_eq_mul hpq
    rw [hl, ← mul_assoc] at h
    refine ⟨k * l, ?_⟩
    have hcancel := mul_right_cancel₀ (hne p) h
    rw [mul_assoc] at hcancel
    exact_mod_cast hcancel
  · obtain ⟨l, hl⟩ := Int.eq_ofNat_of_zero_le (Int.sub_nonneg_of_le hpq)
    obtain rfl : p = l + q := by omega
    rw [zpow_add₀ (by norm_num), ← mul_assoc] at h
    have hcancel := mul_right_cancel₀ (hne q) h
    have hint : i * 2 ^ l = d * k := by exact_mod_cast hcancel
    have hcoprime : IsCoprime d (2 ^ l) := (Int.isCoprime_two_right.mpr hd).pow_right
    exact hcoprime.dvd_of_dvd_mul_right ⟨k, hint⟩

/-- Half-way between two doubles takes 54 bits, and a dividend has 53. -/
theorem div_ne_halfway (ha : IsDouble a) (hb : IsDouble b) (ha0 : 0 < a) (hb0 : 0 < b) (j : ℤ) :
    a / b / ulp (a / b) ≠ j + 1 / 2 := by
  intro hhalf
  have hlow := le_scaled (div_pos ha0 hb0)
  obtain ⟨i, s, hi, rfl⟩ := ha
  obtain ⟨k, t, _, rfl⟩ := hb
  rw [hhalf] at hlow
  have hu := ulp_pos ((i : ℚ) * 2 ^ s / (k * 2 ^ t))
  rw [div_eq_iff hu.ne', div_eq_iff hb0.ne', ulp] at hhalf
  generalize Int.log 2 ((i : ℚ) * 2 ^ s / (k * 2 ^ t)) - 52 = e at hhalf
  have hdvd : 2 * j + 1 ∣ (i : ℤ) := by
    refine dvd_of_mul_zpow_eq (k := k) (p := s + 1) (q := e + t) ⟨j, rfl⟩ ?_
    rw [zpow_add_one₀ (by norm_num), zpow_add₀ (by norm_num)]
    push_cast
    linarith [hhalf]
  have hi0 : (0 : ℤ) < i := by
    rcases Nat.eq_zero_or_pos i with rfl | hpos
    · simp at ha0
    · exact_mod_cast hpos
  have hle := Int.le_of_dvd hi0 hdvd
  have hlow' : (2 ^ 53 : ℚ) ≤ 2 * j + 1 := by linarith
  have hlow'' : (2 ^ 53 : ℤ) ≤ 2 * j + 1 := by exact_mod_cast hlow'
  omega

/-- Exactly when a rounded quotient comes to `y`: when the dividend is above the divisor's multiple
of what is half a unit below `y`. -/
theorem le_nearest_div_iff (ha : IsDouble a) (hb : IsDouble b) (ha0 : 0 < a) (hb0 : 0 < b) :
    y ≤ nearest (a / b) ↔
      b * (⌈y / ulp (a / b)⌉ * ulp (a / b)) < a + b * (ulp (a / b) / 2) := by
  have hu := ulp_pos (a / b)
  have hround : y ≤ nearest (a / b) ↔ ⌈y / ulp (a / b)⌉ ≤ roundEven (a / b / ulp (a / b)) := by
    rw [nearest, ← div_le_iff₀ hu, Int.ceil_le]
  have hhalf : a / b / ulp (a / b) ≠ (⌈y / ulp (a / b)⌉ : ℚ) - 1 / 2 := by
    intro heq
    refine div_ne_halfway ha hb ha0 hb0 (⌈y / ulp (a / b)⌉ - 1) ?_
    rw [heq]
    push_cast
    ring
  rw [hround, le_roundEven_iff hhalf, lt_div_iff₀ hu, lt_div_iff₀ hb0]
  constructor <;> intro h <;> linarith

/-- And when it stays at `y` or below. -/
theorem nearest_div_le_iff (ha : IsDouble a) (hb : IsDouble b) (ha0 : 0 < a) (hb0 : 0 < b) :
    nearest (a / b) ≤ y ↔
      a < b * (⌊y / ulp (a / b)⌋ * ulp (a / b)) + b * (ulp (a / b) / 2) := by
  have hu := ulp_pos (a / b)
  have hround : nearest (a / b) ≤ y ↔ roundEven (a / b / ulp (a / b)) ≤ ⌊y / ulp (a / b)⌋ := by
    rw [nearest, ← le_div_iff₀ hu, Int.le_floor]
  rw [hround, roundEven_le_iff (div_ne_halfway ha hb ha0 hb0 _), div_lt_iff₀ hu, div_lt_iff₀ hb0]
  constructor <;> intro h <;> linarith

end Binary64
