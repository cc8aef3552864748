import NexusTask.Lib.Run
import Mathlib.Logic.Function.Basic

/-!
# Linearizability

An atomic object is a relation `effect x op r y`: in state `x` the operation `op` may reply `r` and
leave `y`. A thread that uses it calls an operation, the operation takes effect at one instant, and
some time later the thread has its reply. `Steps` are the runs of such threads with what a client
sees of them: the calls and the replies, in their order.

A program whose calls take many steps is linearizable when whatever a client sees of one of its runs
can be seen of a run of the atomic object. `Refines.steps` shows it one step at a time.
-/

set_option autoImplicit false

namespace Linearizable

open Transition

universe u v w x y z
variable {ι : Type u} {σ : Type v} {ω : Type w} {ρ : Type x}

/-- Where a thread is with its call: between call and effect, or between effect and reply. -/
inductive Status (ω : Type w) (ρ : Type x)
  | idle
  | called (op : ω)
  | answered (reply : ρ)

/-- What a client sees. -/
inductive Event (ι : Type u) (ω : Type w) (ρ : Type x)
  | call (i : ι) (op : ω)
  | reply (i : ι) (r : ρ)
  deriving DecidableEq

/-- The object and the threads that use it. -/
structure Configuration (ι : Type u) (σ : Type v) (ω : Type w) (ρ : Type x) where
  object : σ
  status : ι → Status ω ρ

/-- The object before any call. -/
def Configuration.start (x : σ) : Configuration ι σ ω ρ := { object := x, status := fun _ => .idle }

variable [DecidableEq ι] {effect : σ → ω → ρ → σ → Prop}

def Configuration.goto (c : Configuration ι σ ω ρ) (i : ι) (st : Status ω ρ) : Configuration ι σ ω ρ :=
  { c with status := Function.update c.status i st }

/-- The runs of threads that use the object, with what a client sees. -/
inductive Steps (effect : σ → ω → ρ → σ → Prop) (c : Configuration ι σ ω ρ) :
    List (Event ι ω ρ) → Configuration ι σ ω ρ → Prop
  | nil : Steps effect c [] c
  | call {es : List (Event ι ω ρ)} {d : Configuration ι σ ω ρ} {i : ι} {op : ω}
      (steps : Steps effect c es d) (idle : d.status i = .idle) :
      Steps effect c (es ++ [.call i op]) (d.goto i (.called op))
  | effect {es : List (Event ι ω ρ)} {d : Configuration ι σ ω ρ} {i : ι} {op : ω} {r : ρ} {y : σ}
      (steps : Steps effect c es d) (called : d.status i = .called op)
      (takes : effect d.object op r y) :
      Steps effect c es ({ d with object := y }.goto i (.answered r))
  | reply {es : List (Event ι ω ρ)} {d : Configuration ι σ ω ρ} {i : ι} {r : ρ}
      (steps : Steps effect c es d) (answered : d.status i = .answered r) :
      Steps effect c (es ++ [.reply i r]) (d.goto i .idle)

namespace Steps

variable {c d e : Configuration ι σ ω ρ} {es fs : List (Event ι ω ρ)} {i : ι} {op : ω} {r : ρ} {y : σ}

theorem trans (h : Steps effect c es d) (h' : Steps effect d fs e) :
    Steps effect c (es ++ fs) e := by
  induction h' with
  | nil => simpa using h
  | call _ idle ih => rw [← List.append_assoc]; exact .call ih idle
  | effect _ called takes ih => exact .effect ih called takes
  | reply _ answered ih => rw [← List.append_assoc]; exact .reply ih answered

/-- A step that the object has no part in. -/
theorem stay {st : Status ω ρ} (h : c.status i = st) : Steps effect c [] (c.goto i st) := by
  have hsame : c.goto i st = c := by
    unfold Configuration.goto
    rw [← h, Function.update_eq_self]
  rw [hsame]
  exact .nil

theorem one_call (idle : c.status i = .idle) :
    Steps effect c [.call i op] (c.goto i (.called op)) := .call .nil idle

theorem one_effect (called : c.status i = .called op) (takes : effect c.object op r y) :
    Steps effect c [] ({ c with object := y }.goto i (.answered r)) := .effect .nil called takes

theorem one_reply (answered : c.status i = .answered r) :
    Steps effect c [.reply i r] (c.goto i .idle) := .reply .nil answered

/-- An operation that takes effect as it replies. -/
theorem effect_reply (called : c.status i = .called op) (takes : effect c.object op r y) :
    Steps effect c [.reply i r] ({ c with object := y }.goto i .idle) := by
  have hstep := (one_effect called takes).reply (i := i) (r := r) (by simp [Configuration.goto])
  simpa [Configuration.goto] using hstep

/-- An operation that a program makes in one step. -/
theorem at_once (idle : c.status i = .idle) (takes : effect c.object op r y) :
    Steps effect c [.call i op, .reply i r] { c with object := y } := by
  have hcalled : (c.goto i (.called op)).status i = .called op := Function.update_self ..
  have hsteps := (one_call idle).trans (effect_reply hcalled takes)
  have hsame : ({ c.goto i (.called op) with object := y }.goto i .idle) = { c with object := y } := by
    unfold Configuration.goto
    rw [Function.update_idem, ← idle, Function.update_eq_self]
  rw [hsame] at hsteps
  exact hsteps

end Steps

/-! ## Programs -/

variable {τ : Type y} {α : Type z} {step : τ → α → Option τ} {ok : τ → α → Prop}
  {observe : τ → α → List (Event ι ω ρ)}

/-- Under the invariant `I` every step does, as a client sees it, what the object can do between
the configurations that stand for the two states. -/
def Refines (effect : σ → ω → ρ → σ → Prop) (step : τ → α → Option τ) (ok : τ → α → Prop)
    (observe : τ → α → List (Event ι ω ρ)) (I : τ → Prop) (abs : τ → Configuration ι σ ω ρ) : Prop :=
  ∀ s a t, I s → ok s a → step s a = some t → Steps effect (abs s) (observe s a) (abs t)

/-- **The linearizability rule.** -/
theorem Refines.steps {I : τ → Prop} {abs : τ → Configuration ι σ ω ρ} {s t : τ} {as : List α}
    (h : Refines effect step ok observe I abs) (hI : Preserved step ok I)
    (hrun : Run step ok s as t) (hs : I s) :
    Steps effect (abs s) (observed step observe s as) (abs t) := by
  induction hrun with
  | nil => exact .nil
  | snoc run meets next ih =>
    rw [observed_snoc run next]
    exact ih.trans (h _ _ _ (run.invariant hI hs) meets next)

end Linearizable
