import Mathlib.Algebra.Order.BigOperators.Group.Finset
import Mathlib.Algebra.BigOperators.Group.Finset.Piecewise

/-!
# Counting occurrences over several lists

`tally f x` is how often `x` occurs in the lists `f i` together. When one of the lists is replaced
the tally changes by what that list gained or lost; the equation is stated without subtraction.
-/

set_option autoImplicit false

universe u v
variable {ι : Type u} {α : Type v} [Fintype ι] [DecidableEq α]

def tally (f : ι → List α) (x : α) : Nat := ∑ i, (f i).count x

theorem tally_update [DecidableEq ι] (f : ι → List α) (i : ι) (l : List α) (x : α) :
    tally (Function.update f i l) x + (f i).count x = tally f x + l.count x := by
  have hrest : ∑ j ∈ Finset.univ.erase i, (Function.update f i l j).count x
      = ∑ j ∈ Finset.univ.erase i, (f j).count x :=
    Finset.sum_congr rfl fun j hj => by
      rw [Function.update_of_ne (Finset.ne_of_mem_erase hj)]
  unfold tally
  rw [← Finset.add_sum_erase _ _ (Finset.mem_univ i), hrest, Function.update_self,
    ← Finset.add_sum_erase _ (fun j => (f j).count x) (Finset.mem_univ i)]
  omega

/-- What is in none of the lists is counted nowhere. -/
theorem tally_eq_zero_of_notMem {f : ι → List α} {x : α} (h : ∀ i, x ∉ f i) : tally f x = 0 :=
  Finset.sum_eq_zero fun i _ => List.count_eq_zero.mpr (h i)

theorem tally_eq_zero {f : ι → List α} (h : ∀ i, f i = []) (x : α) : tally f x = 0 :=
  tally_eq_zero_of_notMem fun i => h i ▸ List.not_mem_nil

theorem le_tally (f : ι → List α) (i : ι) (x : α) : (f i).count x ≤ tally f x :=
  Finset.single_le_sum (f := fun j => (f j).count x) (fun _ _ => Nat.zero_le _)
    (Finset.mem_univ i)

/-- Two lists of the family give at least what both of them contain. -/
theorem add_le_tally [DecidableEq ι] (f : ι → List α) {i j : ι} (h : i ≠ j) (x : α) :
    (f i).count x + (f j).count x ≤ tally f x := by
  have hupdate := tally_update f i [] x
  have hle := le_tally (Function.update f i []) j x
  rw [Function.update_of_ne (Ne.symm h)] at hle
  simp only [List.count_nil, Nat.add_zero] at hupdate
  omega

/-- An element that only one list of the family has, and that one once, is counted once. -/
theorem tally_le_one {f : ι → List α} {x : α} (hone : ∀ i, (f i).count x ≤ 1)
    (hsole : ∀ i j, x ∈ f i → x ∈ f j → i = j) : tally f x ≤ 1 := by
  by_cases h : ∃ i, x ∈ f i
  · obtain ⟨i, hi⟩ := h
    have hrest : ∀ j, j ≠ i → (f j).count x = 0 := fun j hj =>
      List.count_eq_zero.mpr fun hmem => hj (hsole j i hmem hi)
    have hsum : tally f x = (f i).count x :=
      Finset.sum_eq_single i (fun j _ hj => hrest j hj) fun hnot => absurd (Finset.mem_univ i) hnot
    rw [hsum]
    exact hone i
  · have hzero : tally f x = 0 := tally_eq_zero_of_notMem fun i hmem => h ⟨i, hmem⟩
    omega

/-- How many elements have a property, when the property changes at one of them only. -/
theorem card_filter_of_sole {α : Type u} [DecidableEq α] {p q : α → Prop} [DecidablePred p]
    [DecidablePred q] {s : Finset α} {x : α} (hx : x ∈ s)
    (hsame : ∀ y ∈ s, y ≠ x → (p y ↔ q y)) :
    (s.filter p).card + (if q x then 1 else 0) = (s.filter q).card + (if p x then 1 else 0) := by
  have hrest : ∑ y ∈ s.erase x, (if p y then 1 else 0) = ∑ y ∈ s.erase x, (if q y then 1 else 0) :=
    Finset.sum_congr rfl fun y hy => by
      rw [if_congr (hsame y (Finset.mem_of_mem_erase hy) (Finset.ne_of_mem_erase hy)) rfl rfl]
  rw [Finset.card_filter, Finset.card_filter, ← Finset.add_sum_erase s _ hx, hrest,
    ← Finset.add_sum_erase s (fun y => if q y then 1 else 0) hx]
  omega

/-- How many of the values have a property, after one of them is replaced. -/
theorem card_filter_update {β : Type v} [DecidableEq ι] (p : β → Prop) [DecidablePred p] (f : ι → β)
    (i : ι) (b : β) :
    (Finset.univ.filter fun j => p (Function.update f i b j)).card + (if p (f i) then 1 else 0)
      = (Finset.univ.filter fun j => p (f j)).card + (if p b then 1 else 0) := by
  have hcard := card_filter_of_sole (p := fun j => p (Function.update f i b j))
    (q := fun j => p (f j)) (Finset.mem_univ i) fun j _ hj => by rw [Function.update_of_ne hj]
  simpa only [Function.update_self] using hcard
