import Mathlib.Data.List.MinMax

/-!
# Stable priority queues

A list of elements, each with the key it was entered under, in the order of arrival. What is taken
is the first that arrived of those whose key ranks highest; there is room for `bound` elements under
each key. `level` is what is held under one key, and `pop_of_level` is how an implementation with a
queue for each key finds the element to take: at the head of the highest level that is not empty.
-/

set_option autoImplicit false

namespace PriorityFifo

universe u v
variable {α : Type u} {κ : Type v} [DecidableEq κ]

/-- The elements under one key, the first that arrived at the front. -/
def level (held : List (α × κ)) (k : κ) : List α := (held.filter (·.2 = k)).map Prod.fst

/-- Whether there was room under the key, and what is held afterwards. -/
def push (bound : Nat) (held : List (α × κ)) (x : α) (k : κ) : Bool × List (α × κ) :=
  if (level held k).length < bound then (true, held ++ [(x, k)]) else (false, held)

/-- `List.argmax` is the first of the elements that rank highest. -/
def pop (rank : κ → Nat) (held : List (α × κ)) : Option α × List (α × κ) :=
  match held.argmax fun e => rank e.2 with
  | none => (none, held)
  | some (x, k) => (some x, held.eraseP (·.2 = k))

variable {held : List (α × κ)} {rank : κ → Nat} {x : α} {k : κ}

theorem level_append (held held' : List (α × κ)) (k : κ) :
    level (held ++ held') k = level held k ++ level held' k := by
  simp [level]

theorem level_push_self (held : List (α × κ)) (x : α) (k : κ) :
    level (held ++ [(x, k)]) k = level held k ++ [x] := by
  simp [level]

theorem level_push_of_ne (held : List (α × κ)) (x : α) {k k' : κ} (h : k' ≠ k) :
    level (held ++ [(x, k)]) k' = level held k' := by
  simp [level, Ne.symm h]

theorem eq_nil_of_levels (h : ∀ k, level held k = []) : held = [] := by
  cases held with
  | nil => rfl
  | cons e held => exact absurd (h e.2) (by simp [level])

theorem levels_eq_nil_iff : (∀ k, level held k = []) ↔ held = [] := by
  constructor
  · exact eq_nil_of_levels
  · rintro rfl k
    rfl

/-- An element that outranks those before it, and is not outranked by those after it, is the first
of the highest. -/
theorem argmax_split {β : Type u} (f : β → Nat) (before : List β) (m : β) (after : List β)
    (hbefore : ∀ e ∈ before, f e < f m) (hafter : ∀ e ∈ after, f e ≤ f m) :
    (before ++ m :: after).argmax f = some m := by
  induction before with
  | nil =>
    rw [List.nil_append, List.argmax_cons]
    cases hmax : after.argmax f with
    | none => rfl
    | some e => exact if_neg (Nat.not_lt.mpr (hafter e (List.argmax_mem hmax)))
  | cons e before ih =>
    obtain ⟨hfirst, hrest⟩ := List.forall_mem_cons.mp hbefore
    rw [List.cons_append, List.argmax_cons, ih hrest]
    exact if_pos hfirst

/-- It is the one taken, and the others are left as they are. -/
theorem pop_split {before after : List (α × κ)} (hbefore : ∀ e ∈ before, rank e.2 < rank k)
    (hafter : ∀ e ∈ after, rank e.2 ≤ rank k) :
    pop rank (before ++ (x, k) :: after) = (some x, before ++ after) := by
  have hnone : ∀ e ∈ before, ¬ (decide (e.2 = k) = true) := fun e he heq =>
    Nat.lt_irrefl _ (of_decide_eq_true heq ▸ hbefore e he)
  unfold pop
  rw [argmax_split (fun e : α × κ => rank e.2) before (x, k) after hbefore hafter]
  show (some x, _) = _
  rw [List.eraseP_append_right _ hnone, List.eraseP_cons_of_pos (by simp)]

/-- The head of a level with nothing above it is taken: from its level, and from no other. -/
theorem pop_of_level (hrank : Function.Injective rank) {xs : List α} (hlevel : level held k = x :: xs)
    (habove : ∀ k', rank k < rank k' → level held k' = []) :
    (pop rank held).1 = some x ∧ level (pop rank held).2 k = xs ∧
      ∀ k', k' ≠ k → level (pop rank held).2 k' = level held k' := by
  obtain ⟨e, entries, hentries, rfl, rfl⟩ := List.map_eq_cons_iff.mp hlevel
  obtain ⟨before, after, rfl, hbefore, he, rfl⟩ := List.filter_eq_cons_iff.mp hentries
  obtain ⟨x, k'⟩ := e
  obtain rfl : k' = k := of_decide_eq_true he
  have hle : ∀ e ∈ before ++ (x, k') :: after, rank e.2 ≤ rank k' := by
    intro e he
    refine Nat.not_lt.mp fun hlt => ?_
    have hempty := habove e.2 hlt
    rw [level, List.map_eq_nil_iff, List.filter_eq_nil_iff] at hempty
    exact hempty e he (by simp)
  have hlt : ∀ e ∈ before, rank e.2 < rank k' := by
    intro e he
    refine Nat.lt_of_le_of_ne (hle e (List.mem_append_left _ he)) fun heq => ?_
    exact hbefore e he (by simp [hrank heq])
  rw [pop_split hlt fun e he => hle e (List.mem_append_right _ (.tail _ he))]
  refine ⟨rfl, ?_, fun other hother => ?_⟩
  · have hnone : level before k' = [] := by
      rw [level, List.filter_eq_nil_iff.mpr hbefore]
      rfl
    rw [level_append, hnone]
    rfl
  · have hskip : level ((x, k') :: after) other = level after other := by
      simp [level, Ne.symm hother]
    rw [level_append, level_append, hskip]

end PriorityFifo
