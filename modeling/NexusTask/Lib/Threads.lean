import Mathlib.Logic.Function.Basic

/-!
# Families of threads

The threads of a system are a function `f`, and a step replaces the value of one of them.

`Sole f g o` says that among the threads `f i` the one that `g` selects, if any, is `o`: `none`
when nobody is in the section `g` describes, `some (i, y)` when thread `i` is, with `y` the
locals it is there with. Its lemmas are the ways a thread moves: into the section, out of it, and
within it or outside it.
-/

set_option autoImplicit false

universe u v w

namespace Threads

variable {ι : Type u} {β : Type v} [DecidableEq ι] {f : ι → β} {i j : ι} {b : β}

/-- What holds of every thread, and of where one of them goes, goes on holding. -/
theorem all_update (P : β → Prop) (hold : ∀ j, P (f j)) (hb : P b) (j : ι) :
    P (Function.update f i b j) := by
  by_cases h : j = i
  · subst h
    rwa [Function.update_self]
  · rw [Function.update_of_ne h]
    exact hold j

/-- What holds of a thread afterwards held of it before, or holds of where it went. -/
theorem update_cases (P : β → Prop) (h : P (Function.update f i b j)) : P (f j) ∨ j = i ∧ P b := by
  by_cases hj : j = i
  · subst hj
    rw [Function.update_self] at h
    exact .inr ⟨rfl, h⟩
  · rw [Function.update_of_ne hj] at h
    exact .inl h

/-- What the thread that moves keeps changes for no thread. -/
theorem congr_update {γ : Type w} (g : β → γ) (h : g b = g (f i)) (j : ι) :
    g (Function.update f i b j) = g (f j) := by
  by_cases hj : j = i
  · subst hj
    rw [Function.update_self, h]
  · rw [Function.update_of_ne hj]

/-- What holds of the thread that moves exactly if it held before changes for no thread. -/
theorem iff_update (P : β → Prop) (h : P b ↔ P (f i)) (j : ι) :
    P (Function.update f i b j) ↔ P (f j) := iff_of_eq (congr_update P (propext h) j)

end Threads

def Sole {ι : Type u} {β : Type v} {γ : Type w} (f : ι → β) (g : β → Option γ)
    (o : Option (ι × γ)) : Prop := ∀ i y, g (f i) = some y ↔ o = some (i, y)

namespace Sole

variable {ι : Type u} {β : Type v} {γ : Type w} {f : ι → β} {g : β → Option γ}
  {o : Option (ι × γ)} {i : ι} {y : γ} {b : β}

theorem vacant (h : ∀ i, g (f i) = none) : Sole f g none := fun i y => by simp [h i]

theorem eq_none (h : Sole f g o) (hall : ∀ i, g (f i) = none) : o = none := by
  cases o with
  | none => rfl
  | some p => exact absurd ((h p.1 p.2).mpr rfl) (by simp [hall])

variable [DecidableEq ι]

/-- A move within the section, or outside it. -/
theorem keep (h : Sole f g o) (hsame : g b = g (f i)) : Sole (Function.update f i b) g o := by
  intro j z
  rw [Threads.congr_update g hsame j]
  exact h j z

theorem stay (h : Sole f g o) (hold : g (f i) = none) (hnew : g b = none) :
    Sole (Function.update f i b) g o := h.keep (hnew.trans hold.symm)

theorem enter (h : Sole f g none) (hnew : g b = some y) :
    Sole (Function.update f i b) g (some (i, y)) := by
  intro j z
  by_cases hj : j = i
  · subst hj
    simp [hnew]
  · rw [Function.update_of_ne hj, h j z]
    simp [Ne.symm hj]

theorem leave (h : Sole f g (some (i, y))) (hnew : g b = none) :
    Sole (Function.update f i b) g none := by
  intro j z
  by_cases hj : j = i
  · subst hj
    simp [hnew]
  · rw [Function.update_of_ne hj, h j z]
    simp [Ne.symm hj]

end Sole
