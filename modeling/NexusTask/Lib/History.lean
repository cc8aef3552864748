import Mathlib.Data.List.Basic

/-!
# Histories

A history is a list of what has happened, the latest at the end. `EachAfter P` says of every entry
something about the entries before it, `SomeAfter P` of one of them; a history that grows by one
entry goes on to meet the first as long as that entry does, and comes to meet the second if it does.
-/

set_option autoImplicit false

namespace History

universe u
variable {α : Type u} {P Q : List α → α → Prop} {l : List α}

/-- Every entry meets `P` with the entries before it. -/
def EachAfter (P : List α → α → Prop) (l : List α) : Prop :=
  ∀ before e after, l = before ++ e :: after → P before e

theorem eachAfter_nil : EachAfter P [] := fun _ _ _ h => absurd h (by simp)

theorem eachAfter_concat {e : α} :
    EachAfter P (l ++ [e]) ↔ EachAfter P l ∧ P l e := by
  constructor
  · intro h
    refine ⟨fun before e' after hl => h before e' (after ++ [e]) ?_, h l e [] rfl⟩
    rw [hl, List.append_assoc, List.cons_append]
  · rintro ⟨hl, he⟩ before e' after hsplit
    rcases List.eq_nil_or_concat after with rfl | ⟨after, last, rfl⟩
    · obtain ⟨rfl, hlast⟩ := List.append_inj' hsplit rfl
      obtain rfl := List.head_eq_of_cons_eq hlast
      exact he
    · rw [List.concat_eq_append, ← List.cons_append, ← List.append_assoc] at hsplit
      exact hl before e' after (List.append_inj' hsplit rfl).1

/-- Some entry meets `P` with the entries before it. -/
def SomeAfter (P : List α → α → Prop) (l : List α) : Prop :=
  ∃ before e after, l = before ++ e :: after ∧ P before e

theorem not_someAfter : ¬ SomeAfter P l ↔ EachAfter (fun before e => ¬ P before e) l := by
  unfold SomeAfter EachAfter
  push Not
  rfl

theorem someAfter_concat {e : α} :
    SomeAfter P (l ++ [e]) ↔ SomeAfter P l ∨ P l e := by
  rw [← not_iff_not, not_or, not_someAfter, not_someAfter, eachAfter_concat]

theorem EachAfter.mono (h : ∀ before e, P before e → Q before e)
    (hl : EachAfter P l) : EachAfter Q l := fun before e after hsplit =>
  h before e (hl before e after hsplit)

end History
