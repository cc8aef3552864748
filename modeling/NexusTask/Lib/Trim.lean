import Mathlib.Data.List.DropRight

/-!
# Trimming a list

The longest prefix and then the longest suffix whose elements satisfy `p` are taken off. What is put
around a list that neither begins nor ends with such an element comes off again, and nothing else.
-/

set_option autoImplicit false

namespace Trimming

open List

universe u
variable {α : Type u} {p : α → Bool} {l blanks : List α}

def trim (p : α → Bool) (l : List α) : List α := (l.dropWhile p).rdropWhile p

/-- The list neither begins nor ends with an element that satisfies `p`. -/
structure Trimmed (p : α → Bool) (l : List α) : Prop where
  first : ∀ a ∈ l.head?, p a = false
  last : ∀ a ∈ l.getLast?, p a = false

instance (p : α → Bool) (l : List α) : Decidable (Trimmed p l) :=
  decidable_of_iff ((∀ a ∈ l.head?, p a = false) ∧ ∀ a ∈ l.getLast?, p a = false)
    ⟨fun h => ⟨h.1, h.2⟩, fun h => ⟨h.first, h.last⟩⟩

theorem rdropWhile_append_of_pos (h : ∀ a ∈ blanks, p a = true) :
    (l ++ blanks).rdropWhile p = l.rdropWhile p := by
  unfold rdropWhile
  rw [reverse_append, dropWhile_append_of_pos]
  intro a ha
  exact h a (mem_reverse.mp ha)

theorem trim_append_left (h : ∀ a ∈ blanks, p a = true) : trim p (blanks ++ l) = trim p l := by
  unfold trim
  rw [dropWhile_append_of_pos h]

theorem trim_append_right (h : ∀ a ∈ blanks, p a = true) : trim p (l ++ blanks) = trim p l := by
  unfold trim
  rw [dropWhile_append]
  split
  next hempty =>
    have hblanks : blanks.dropWhile p = [] := dropWhile_eq_nil_iff.mpr h
    rw [hblanks, isEmpty_iff.mp hempty]
  next => rw [rdropWhile_append_of_pos h]

theorem Trimmed.trim_eq (h : Trimmed p l) : trim p l = l := by
  have hfront : l.dropWhile p = l := by
    cases l with
    | nil => rfl
    | cons a l => exact dropWhile_cons_of_neg (by simp [h.first a rfl])
  unfold trim
  rw [hfront, rdropWhile_eq_self_iff]
  intro hne
  simp [h.last (l.getLast hne) (getLast?_eq_some_getLast hne)]

/-- Blanks on both sides come off. -/
theorem Trimmed.trim_surround {m : List α} (h : Trimmed p m) (hl : ∀ a ∈ l, p a = true)
    (hblanks : ∀ a ∈ blanks, p a = true) : trim p (l ++ m ++ blanks) = m := by
  rw [trim_append_right hblanks, trim_append_left hl, h.trim_eq]

end Trimming
