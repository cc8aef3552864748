import Mathlib.Data.List.Find
import Mathlib.Data.List.Rotate

/-!
# Taking turns

`n` places stand in a circle, and those that meet `p` take turns: a scan from the cursor on takes
the first of them, and the cursor goes one place beyond it. Where the cursor begins does not matter,
it may be anywhere. The places that meet `p`, in the order the scan visits them, are a queue; a turn
rotates it by one, and that is all there is to fairness.
-/

set_option autoImplicit false

namespace RoundRobin

variable (n : Nat) (p : Nat → Bool)

/-- The places in the order a scan from the cursor visits them. -/
def circle (cursor : Nat) : List Nat := (List.range n).rotate cursor

/-- Those of them whose turn comes. -/
def queue (cursor : Nat) : List Nat := (circle n cursor).filter p

/-- The place taken. -/
def taken (cursor : Nat) : Option Nat := (circle n cursor).find? p

/-- The cursor goes beyond the place taken, and stays if there is none. -/
def advance (cursor : Nat) : Nat :=
  match taken n p cursor with
  | some i => (i + 1) % n
  | none => cursor

/-- The cursor after a number of turns. -/
def cursorAfter (cursor : Nat) : Nat → Nat
  | 0 => cursor
  | k + 1 => advance n p (cursorAfter cursor k)

variable {n p}

theorem circle_eq_map (cursor : Nat) :
    circle n cursor = (List.range n).map fun i => (cursor + i) % n := by
  apply List.ext_getElem?
  intro i
  unfold circle
  by_cases hi : i < n
  · have hrange : i < (List.range n).length := by rwa [List.length_range]
    rw [List.getElem?_rotate hrange, List.length_range, List.getElem?_map, List.getElem?_range hi,
      List.getElem?_range (Nat.mod_lt _ (Nat.zero_lt_of_lt hi)), Nat.add_comm]
    rfl
  · have hle := Nat.le_of_not_lt hi
    rw [List.getElem?_eq_none (by simpa using hle), List.getElem?_eq_none (by simpa using hle)]

theorem taken_meets {cursor i : Nat} (h : taken n p cursor = some i) : p i = true :=
  List.find?_some h

/-- Only the places in the circle matter. -/
theorem taken_congr {q : Nat → Bool} (h : ∀ i ∈ List.range n, p i = q i) (cursor : Nat) :
    taken n p cursor = taken n q cursor :=
  List.find?_congr fun i hi => h i (List.mem_rotate.mp hi)

theorem taken_eq_head? (cursor : Nat) : taken n p cursor = (queue n p cursor).head? :=
  (List.head?_filter ..).symm

/-- The scan that begins one place beyond the place at which another one came to `i`. -/
theorem circle_succ {cursor i : Nat} {before after : List Nat}
    (h : circle n cursor = before ++ i :: after) :
    circle n ((i + 1) % n) = after ++ (before ++ [i]) := by
  have hlength : before.length < (circle n cursor).length := by
    rw [h, List.length_append, List.length_cons]
    omega
  have hi : i = (before.length + cursor) % n := by
    have hget : (circle n cursor)[before.length]? = some i := by simp [h]
    rw [List.getElem?_eq_getElem hlength] at hget
    simpa [circle, List.getElem_rotate] using (Option.some.inj hget).symm
  have hplace : (i + 1) % n = (cursor + (before ++ [i]).length) % n := by
    rw [hi, Nat.mod_add_mod, List.length_append, List.length_singleton]
    congr 1
    omega
  calc circle n ((i + 1) % n)
      = (List.range n).rotate ((cursor + (before ++ [i]).length) % (List.range n).length) := by
        rw [circle, hplace, List.length_range]
    _ = (circle n cursor).rotate (before ++ [i]).length := by
        rw [List.rotate_mod, circle, List.rotate_rotate]
    _ = after ++ (before ++ [i]) := by
        rw [h, List.append_cons before i after, List.rotate_append_length_eq]

/-- A turn moves the place taken from the front of the queue to its end. -/
theorem queue_advance (cursor : Nat) :
    queue n p (advance n p cursor) = (queue n p cursor).rotate 1 := by
  unfold advance
  cases htaken : taken n p cursor with
  | none =>
    have hempty : queue n p cursor = [] := by
      rw [← List.head?_eq_none_iff, ← taken_eq_head?, htaken]
    rw [hempty, List.rotate_nil]
  | some i =>
    obtain ⟨hp, before, after, hsplit, hbefore⟩ := List.find?_eq_some_iff_append.mp htaken
    have hskipped : before.filter p = [] :=
      List.filter_eq_nil_iff.mpr fun a ha => by simpa using hbefore a ha
    show (circle n ((i + 1) % n)).filter p = ((circle n cursor).filter p).rotate 1
    rw [circle_succ hsplit, hsplit]
    simp [List.filter_append, hskipped, hp]

theorem queue_cursorAfter (cursor k : Nat) :
    queue n p (cursorAfter n p cursor k) = (queue n p cursor).rotate k := by
  induction k with
  | zero => exact (List.rotate_zero _).symm
  | succ k ih => rw [cursorAfter, queue_advance, ih, List.rotate_rotate]

/-- The queue holds every place that meets `p` once, wherever the cursor is. -/
theorem queue_perm (cursor : Nat) : (queue n p cursor).Perm ((List.range n).filter p) :=
  (List.rotate_perm _ _).filter p

theorem taken_cursorAfter (cursor k : Nat) :
    taken n p (cursorAfter n p cursor k) = ((queue n p cursor).rotate k).head? := by
  rw [taken_eq_head?, queue_cursorAfter]

/-- As many turns as there are places whose turn comes, from any turn on. -/
theorem round_eq (cursor j : Nat) :
    ((List.range (queue n p cursor).length).map fun k => taken n p (cursorAfter n p cursor (j + k)))
      = ((queue n p cursor).rotate j).map some := by
  apply List.ext_getElem?
  intro k
  by_cases hk : k < (queue n p cursor).length
  · have hrotated : k < ((queue n p cursor).rotate j).length := by rwa [List.length_rotate]
    rw [List.getElem?_map, List.getElem?_range hk, List.getElem?_map, Option.map_some,
      taken_cursorAfter, ← List.rotate_rotate, List.head?_rotate hrotated,
      List.getElem?_eq_getElem hrotated, Option.map_some]
  · have hlength := Nat.le_of_not_lt hk
    rw [List.getElem?_eq_none (by simpa using hlength),
      List.getElem?_eq_none (by simpa using hlength)]

/-- **Fairness.** Every place that meets `p` is taken exactly once in a round. -/
theorem round_perm (cursor j : Nat) :
    ((List.range ((List.range n).filter p).length).map fun k =>
        taken n p (cursorAfter n p cursor (j + k))).Perm (((List.range n).filter p).map some) := by
  rw [← (queue_perm cursor).length_eq, round_eq]
  exact ((List.rotate_perm _ _).trans (queue_perm cursor)).map some

/-- The rounds all have the same order. -/
theorem taken_periodic (cursor k : Nat) :
    taken n p (cursorAfter n p cursor (k + ((List.range n).filter p).length))
      = taken n p (cursorAfter n p cursor k) := by
  rw [taken_cursorAfter, taken_cursorAfter, ← (queue_perm cursor).length_eq, Nat.add_comm,
    ← List.rotate_rotate, List.rotate_length]

/-- Nobody's turn comes. -/
theorem cursorAfter_of_empty (h : (List.range n).filter p = []) (cursor k : Nat) :
    taken n p (cursorAfter n p cursor k) = none ∧ cursorAfter n p cursor k = cursor := by
  have hqueue : ∀ c, taken n p c = none := fun c => by
    rw [taken_eq_head?, List.head?_eq_none_iff, ← List.perm_nil, ← h]
    exact queue_perm c
  refine ⟨hqueue _, ?_⟩
  induction k with
  | zero => rfl
  | succ k ih => rw [cursorAfter, advance, hqueue, ih]

end RoundRobin
