import Mathlib.Data.List.Basic
import Mathlib.Data.List.Induction
import Mathlib.Data.Nat.Bitwise
import Mathlib.Logic.Function.Basic

/-!
# Lists stored in a ring of slots

`Holds cap front slots xs` says that `xs` lies in the slots `front, front + 1, …` of a ring of
`cap` slots, in order, and that every other slot is vacant. One slot is always vacant, so the
first index behind the list is never `front` again unless the list is empty.

Positions are written with one conditional wrap (`index`, `offset`, `advance`) instead of `%`, which
keeps every side condition linear; `mask_index` is for programs that wrap with a mask.
-/

set_option autoImplicit false

namespace RingBuffer

universe u
variable {α : Type u} {cap front : Nat}

/-- The slot `k` places behind `front`. -/
def index (cap front k : Nat) : Nat := if front + k < cap then front + k else front + k - cap

/-- How far slot `i` is behind `front`. -/
def offset (cap front i : Nat) : Nat := if front ≤ i then i - front else i + cap - front

/-- The next slot. -/
def advance (cap i : Nat) : Nat := if i + 1 < cap then i + 1 else 0

theorem index_lt {k : Nat} (hf : front < cap) (hk : k < cap) : index cap front k < cap := by
  unfold index; split <;> omega

@[simp] theorem index_zero (hf : front < cap) : index cap front 0 = front := by
  simp [index, hf]

@[simp] theorem offset_self : offset cap front front = 0 := by simp [offset]

theorem offset_index {k : Nat} (hf : front < cap) (hk : k < cap) :
    offset cap front (index cap front k) = k := by
  unfold offset index; split <;> split <;> omega

theorem index_offset {i : Nat} (hf : front < cap) (hi : i < cap) :
    index cap front (offset cap front i) = i := by
  unfold offset index; split <;> split <;> omega

theorem advance_lt {i : Nat} (hi : i < cap) : advance cap i < cap := by
  unfold advance; split <;> omega

theorem index_succ {k : Nat} (hf : front < cap) (hk : k < cap) :
    index cap front (k + 1) = advance cap (index cap front k) := by
  unfold index advance; split <;> split <;> split <;> omega

theorem index_advance {k : Nat} (hf : front < cap) (hk : k + 1 < cap) :
    index cap (advance cap front) k = index cap front (k + 1) := by
  unfold index advance; split <;> split <;> split <;> omega

/-- A list ends right before its front exactly if one slot is left. -/
theorem advance_index_eq_front_iff {k : Nat} (hf : front < cap) (hk : k < cap) :
    advance cap (index cap front k) = front ↔ k + 1 = cap := by
  unfold index advance; split <;> split <;> omega

theorem advance_index_last {k : Nat} (hf : front < cap) (hk : k + 1 = cap) :
    advance cap (index cap front k) = front :=
  (advance_index_eq_front_iff hf (by omega)).mpr hk

/-- The slot behind the list is its front exactly if the list is empty. -/
theorem index_eq_front_iff {k : Nat} (hf : front < cap) (hk : k < cap) :
    index cap front k = front ↔ k = 0 := by
  unfold index; split <;> omega

theorem offset_advance {i : Nat} (hf : front < cap) (hi : i < cap) (hne : i ≠ front) :
    offset cap front i = offset cap (advance cap front) i + 1 := by
  unfold offset advance; split <;> split <;> split <;> omega

theorem offset_advance_front (hf : front < cap) :
    offset cap (advance cap front) front = cap - 1 := by
  unfold offset advance; split <;> split <;> omega

/-- Masking with `2 ^ k - 1` wraps an index of a ring of `2 ^ k` slots. -/
theorem mask_index {i k : Nat} (hi : i < 2 ^ k) : i &&& (2 ^ k - 1) = i := by
  rw [Nat.and_two_pow_sub_one_eq_mod, Nat.mod_eq_of_lt hi]

theorem mask_succ {i k : Nat} (hi : i < 2 ^ k) :
    (i + 1) &&& (2 ^ k - 1) = advance (2 ^ k) i := by
  rw [Nat.and_two_pow_sub_one_eq_mod]
  unfold advance
  split
  next h => exact Nat.mod_eq_of_lt h
  next h =>
    have hend : i + 1 = 2 ^ k := by omega
    rw [hend, Nat.mod_self]

/-! ## The list in the ring -/

structure Holds (cap front : Nat) (slots : Nat → Option α) (xs : List α) : Prop where
  front_lt : front < cap
  length_lt : xs.length < cap
  slot : ∀ i, i < cap → slots i = xs[offset cap front i]?

namespace Holds

variable {slots : Nat → Option α} {xs : List α} {x : α}

theorem empty (hf : front < cap) : Holds cap front (fun _ => none) ([] : List α) where
  front_lt := hf
  length_lt := by simp only [List.length_nil]; omega
  slot _ _ := by simp

theorem get_index (h : Holds cap front slots xs) {k : Nat} (hk : k < cap) :
    slots (index cap front k) = xs[k]? := by
  rw [h.slot _ (index_lt h.front_lt hk), offset_index h.front_lt hk]

theorem get_front (h : Holds cap front slots xs) : slots front = xs.head? := by
  rw [h.slot _ h.front_lt, offset_self, List.head?_eq_getElem?]

theorem occupied_iff (h : Holds cap front slots xs) {i : Nat} (hi : i < cap) :
    slots i ≠ none ↔ offset cap front i < xs.length := by
  rw [h.slot _ hi, Ne, List.getElem?_eq_none_iff, Nat.not_le]

/-- The slot behind the list is vacant. -/
theorem get_back (h : Holds cap front slots xs) :
    slots (index cap front xs.length) = none := by
  rw [h.get_index h.length_lt, List.getElem?_eq_none_iff]

/-- Writing the slot behind the list appends, as long as one slot stays vacant. -/
theorem push (h : Holds cap front slots xs) (hroom : xs.length + 1 < cap) :
    Holds cap front (Function.update slots (index cap front xs.length) (some x))
      (xs ++ [x]) where
  front_lt := h.front_lt
  length_lt := by simpa using hroom
  slot i hi := by
    by_cases hback : i = index cap front xs.length
    · subst hback
      rw [offset_index h.front_lt h.length_lt]
      simp
    · have hne : offset cap front i ≠ xs.length := fun he =>
        hback (by rw [← index_offset h.front_lt hi, he])
      rw [Function.update_of_ne hback, h.slot i hi]
      rcases Nat.lt_or_gt_of_ne hne with hlt | hgt
      · rw [List.getElem?_append_left hlt]
      · rw [List.getElem?_eq_none (by omega), List.getElem?_eq_none (by simp; omega)]

/-- Vacating the front slot removes the first element. -/
theorem pop (h : Holds cap front slots (x :: xs)) :
    Holds cap (advance cap front) (Function.update slots front none) xs where
  front_lt := advance_lt h.front_lt
  length_lt := by have := h.length_lt; simp only [List.length_cons] at this; omega
  slot i hi := by
    have hlen := h.length_lt
    simp only [List.length_cons] at hlen
    by_cases hfront : i = front
    · subst hfront
      rw [Function.update_self, offset_advance_front h.front_lt,
        List.getElem?_eq_none (by omega)]
    · rw [Function.update_of_ne hfront, h.slot i hi, offset_advance h.front_lt hi hfront,
        List.getElem?_cons_succ]

/-- Reading the occupied slots in order gives the list back. -/
theorem read (h : Holds cap front slots xs) :
    (List.range xs.length).filterMap (fun k => slots (index cap front k)) = xs := by
  have hslots : ∀ k ∈ List.range xs.length, slots (index cap front k) = xs[k]? := by
    intro k hk
    exact h.get_index (Nat.lt_trans (List.mem_range.mp hk) h.length_lt)
  rw [List.filterMap_congr hslots]
  clear h hslots
  induction xs using List.reverseRecOn with
  | nil => rfl
  | append_singleton xs x ih =>
    rw [List.length_append, List.length_singleton, List.range_succ, List.filterMap_append]
    have hold : ∀ k ∈ List.range xs.length, (xs ++ [x])[k]? = xs[k]? := fun k hk =>
      List.getElem?_append_left (List.mem_range.mp hk)
    rw [List.filterMap_congr hold, ih]
    simp

end Holds
end RingBuffer
