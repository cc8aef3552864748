import Mathlib.Logic.Function.Basic
import Mathlib.Order.Lattice

/-!
# Entries with a deadline

A table gives a key a value and the time up to which it holds. What a reader sees at a time is the
value if the deadline has not passed. Two tables may differ and still look the same to every reader
from some time on (`SameFrom`): what has expired by then may be there or not. Writing the same into
both keeps that, and so does dropping what has expired, whoever drops it and when.
-/

set_option autoImplicit false

namespace Expiry

universe u v w
variable {K : Type u} {ρ : Type v} {τ : Type w} [LinearOrder τ]

/-- What is seen at time `t`. The deadline itself still counts. -/
def alive (t : τ) : Option (ρ × τ) → Option ρ
  | some (r, deadline) => if t ≤ deadline then some r else none
  | none => none

theorem alive_eq_some {t : τ} {o : Option (ρ × τ)} {r : ρ} :
    alive t o = some r ↔ ∃ deadline, o = some (r, deadline) ∧ t ≤ deadline := by
  unfold alive
  split
  next r' deadline =>
    split
    next hle =>
      simp only [Option.some.injEq, Prod.mk.injEq]
      constructor
      · rintro rfl
        exact ⟨deadline, ⟨rfl, rfl⟩, hle⟩
      · rintro ⟨_, ⟨rfl, _⟩, _⟩
        rfl
    next hgt =>
      simp only [Option.some.injEq, Prod.mk.injEq]
      refine iff_of_false (by simp) ?_
      rintro ⟨_, ⟨_, rfl⟩, hle⟩
      exact hgt hle
  next => simp

/-- What has expired stays expired. -/
theorem alive_eq_none_mono {t t' : τ} {o : Option (ρ × τ)} (h : alive t o = none) (hle : t ≤ t') :
    alive t' o = none := by
  refine Option.eq_none_iff_forall_ne_some.mpr fun r hr => ?_
  obtain ⟨deadline, ho, hdeadline⟩ := alive_eq_some.mp hr
  have hbefore : alive t o = some r := alive_eq_some.mpr ⟨deadline, ho, le_trans hle hdeadline⟩
  exact absurd (h.symm.trans hbefore) (by simp)

/-- From `start` on nobody can tell the two tables apart. -/
def SameFrom (start : τ) (f g : K → Option (ρ × τ)) : Prop :=
  ∀ k t, start ≤ t → alive t (f k) = alive t (g k)

namespace SameFrom

variable {start : τ} {f g h : K → Option (ρ × τ)}

theorem refl (start : τ) (f : K → Option (ρ × τ)) : SameFrom start f f := fun _ _ _ => rfl

theorem of_eq (h : f = g) : SameFrom start f g := h ▸ refl start f

theorem trans (hfg : SameFrom start f g) (hgh : SameFrom start g h) : SameFrom start f h :=
  fun k t ht => (hfg k t ht).trans (hgh k t ht)

theorem later {start' : τ} (hfg : SameFrom start f g) (hle : start ≤ start') :
    SameFrom start' f g := fun k t ht => hfg k t (le_trans hle ht)

/-- The same is written into both. -/
theorem write (hfg : SameFrom start f g) (written : K → Option (Option (ρ × τ))) :
    SameFrom start (fun k => (written k).getD (f k)) (fun k => (written k).getD (g k)) := by
  intro k t ht
  dsimp only
  cases written k with
  | none => exact hfg k t ht
  | some o => rfl

/-- Dropping what has expired. -/
theorem of_dropped (hdrop : ∀ k, f k = g k ∨ f k = none ∧ alive start (g k) = none) :
    SameFrom start f g := by
  intro k t ht
  rcases hdrop k with hsame | ⟨hnone, hexpired⟩
  · rw [hsame]
  · rw [hnone, alive_eq_none_mono hexpired ht]
    rfl

end SameFrom
end Expiry
