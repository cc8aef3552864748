import Mathlib.Data.List.Basic

/-!
# Objects that answer calls

An object is a function from a state and a call to a reply and the next state; `none` is a call
that does not return. A specification is an object whose calls all return. `Simulates` relates the
two over one call, and `Simulates.serve` over any sequence of calls: the sequence returns, with the
replies of the specification.
-/

set_option autoImplicit false

namespace Object

universe u v w x
variable {σ : Type u} {τ : Type v} {ι : Type w} {ρ : Type x}

/-- The replies to the calls of a list, one after the other, and the state they leave. -/
def serve (call : σ → ι → Option (ρ × σ)) (s : σ) : List ι → Option (List ρ × σ)
  | [] => some ([], s)
  | c :: cs =>
      match call s c with
      | none => none
      | some (r, s') => (serve call s' cs).map fun (rs, t) => (r :: rs, t)

/-- The same for a specification. -/
def replies (spec : τ → ι → ρ × τ) (t : τ) : List ι → List ρ × τ
  | [] => ([], t)
  | c :: cs =>
      let (r, t') := spec t c
      let (rs, u) := replies spec t' cs
      (r :: rs, u)

/-- From related states a call returns what the specification says, and the states stay related. -/
def Simulates (R : σ → τ → Prop) (call : σ → ι → Option (ρ × σ)) (spec : τ → ι → ρ × τ) : Prop :=
  ∀ s t c, R s t → ∃ s', call s c = some ((spec t c).1, s') ∧ R s' (spec t c).2

/-- **The simulation rule.** -/
theorem Simulates.serve {R : σ → τ → Prop} {call : σ → ι → Option (ρ × σ)} {spec : τ → ι → ρ × τ}
    (h : Simulates R call spec) {s : σ} {t : τ} (hR : R s t) (cs : List ι) :
    ∃ s', Object.serve call s cs = some ((replies spec t cs).1, s') ∧ R s' (replies spec t cs).2 := by
  induction cs generalizing s t with
  | nil => exact ⟨s, rfl, hR⟩
  | cons c cs ih =>
    obtain ⟨s₁, hcall, hR₁⟩ := h s t c hR
    obtain ⟨s₂, hrest, hR₂⟩ := ih hR₁
    refine ⟨s₂, ?_, hR₂⟩
    rw [Object.serve, hcall]
    show (Object.serve call s₁ cs).map _ = _
    rw [hrest]
    rfl

/-- What every call of a specification preserves, every sequence preserves. -/
theorem replies_preserves {spec : τ → ι → ρ × τ} {I : τ → Prop}
    (h : ∀ t c, I t → I (spec t c).2) {t : τ} (hI : I t) (cs : List ι) :
    I (replies spec t cs).2 := by
  induction cs generalizing t with
  | nil => exact hI
  | cons c cs ih => exact ih (h t c hI)

end Object
