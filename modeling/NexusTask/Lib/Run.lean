import Mathlib.Data.List.Induction

/-!
# Runs of a partial step function

A concurrent program is given here by one partial function `step : σ → α → Option σ`. The label
says which thread moves and carries whatever the thread cannot decide by itself (a clock reading,
the outcome of a call it makes), so that a label determines the successor state.

`Run step ok s as t` is a finite interleaving: the labels `as` lead from `s` to `t`, and each step
met `ok` in the state it was taken from. With `ok := free` these are all runs. With a narrower
`ok` they are the runs in which something never happens, which is how a result that holds only
under a condition on the schedule is stated.
-/

set_option autoImplicit false

namespace Transition

universe u v w x
variable {σ : Type u} {α : Type v} {step : σ → α → Option σ} {ok ok' : σ → α → Prop}

/-- No condition on the steps. -/
def free : σ → α → Prop := fun _ _ => True

inductive Run (step : σ → α → Option σ) (ok : σ → α → Prop) (s : σ) : List α → σ → Prop
  | nil : Run step ok s [] s
  | snoc {as : List α} {t u : σ} {a : α} (run : Run step ok s as t) (meets : ok t a)
      (next : step t a = some u) : Run step ok s (as ++ [a]) u

/-- `I` survives every step that meets `ok`. -/
def Preserved (step : σ → α → Option σ) (ok : σ → α → Prop) (I : σ → Prop) : Prop :=
  ∀ s a t, I s → ok s a → step s a = some t → I t

namespace Run

theorem single {s t : σ} {a : α} (meets : ok s a) (next : step s a = some t) :
    Run step ok s [a] t := .snoc .nil meets next

theorem trans {s t u : σ} {as bs : List α} (h₁ : Run step ok s as t)
    (h₂ : Run step ok t bs u) : Run step ok s (as ++ bs) u := by
  induction h₂ with
  | nil => simpa using h₁
  | snoc _ meets next ih => rw [← List.append_assoc]; exact .snoc ih meets next

theorem cons {s t u : σ} {a : α} {as : List α} (meets : ok s a) (next : step s a = some t)
    (h : Run step ok t as u) : Run step ok s (a :: as) u := (single meets next).trans h

theorem eq_of_nil {s t : σ} (h : Run step ok s [] t) : s = t := by
  generalize hl : ([] : List α) = l at h
  cases h with
  | nil => rfl
  | snoc run meets next => exact absurd hl (by simp)

/-- The first step of a run, and the rest of it. -/
theorem of_cons {s u : σ} {a : α} {as : List α} (h : Run step ok s (a :: as) u) :
    ok s a ∧ ∃ t, step s a = some t ∧ Run step ok t as u := by
  generalize hl : a :: as = l at h
  induction h generalizing as with
  | nil => exact absurd hl (by simp)
  | @snoc l t u b run meets next ih =>
    cases l with
    | nil =>
      obtain ⟨rfl, rfl⟩ := List.cons.inj hl
      obtain rfl := run.eq_of_nil
      exact ⟨meets, u, next, .nil⟩
    | cons c l =>
      obtain ⟨rfl, rfl⟩ := List.cons.inj hl
      obtain ⟨hok, v, hv, hrest⟩ := ih rfl
      exact ⟨hok, v, hv, .snoc hrest meets next⟩

theorem mono {s t : σ} {as : List α} (hle : ∀ s a, ok s a → ok' s a)
    (h : Run step ok s as t) : Run step ok' s as t := by
  induction h with
  | nil => exact .nil
  | snoc _ meets next ih => exact .snoc ih (hle _ _ meets) next

theorem toFree {s t : σ} {as : List α} (h : Run step ok s as t) : Run step free s as t :=
  h.mono fun _ _ _ => trivial

/-- **The invariant rule.** What holds at the start and survives every step holds at the end. -/
theorem invariant {I : σ → Prop} {s t : σ} {as : List α} (hI : Preserved step ok I)
    (h : Run step ok s as t) (hs : I s) : I t := by
  induction h with
  | nil => exact hs
  | snoc _ meets next ih => exact hI _ _ _ ih meets next

/-- The labels determine where a run ends. -/
theorem functional {s t t' : σ} {as : List α} (h : Run step ok s as t)
    (h' : Run step ok' s as t') : t = t' := by
  induction as generalizing s with
  | nil => exact h.eq_of_nil.symm.trans h'.eq_of_nil
  | cons a as ih =>
    obtain ⟨_, u, hu, hrest⟩ := h.of_cons
    obtain ⟨_, u', hu', hrest'⟩ := h'.of_cons
    obtain rfl : u = u' := Option.some.inj (hu.symm.trans hu')
    exact ih hrest hrest'

/-- The last step of a run, and what came before. -/
theorem of_snoc {s u : σ} {a : α} {as : List α} (h : Run step ok s (as ++ [a]) u) :
    ∃ t, Run step ok s as t ∧ ok t a ∧ step t a = some u := by
  generalize hl : as ++ [a] = l at h
  cases h with
  | nil => exact absurd hl (by simp)
  | snoc run meets next =>
    obtain ⟨rfl, hlast⟩ := List.append_inj' hl rfl
    obtain rfl := List.head_eq_of_cons_eq hlast
    exact ⟨_, run, meets, next⟩

/-- The two halves of a run. -/
theorem of_append {s u : σ} {as bs : List α} (h : Run step ok s (as ++ bs) u) :
    ∃ t, Run step ok s as t ∧ Run step ok t bs u := by
  induction as generalizing s with
  | nil => exact ⟨s, .nil, h⟩
  | cons a as ih =>
    obtain ⟨meets, v, hv, hrest⟩ := h.of_cons
    obtain ⟨t, hfirst, hsecond⟩ := ih hrest
    exact ⟨t, .cons meets hv hfirst, hsecond⟩

/-- **The exactness rule.** If under the invariant `I` a step keeps `P` exactly when it meets `ok`,
then `P` holds at the end of a run exactly when all its steps met `ok`. -/
theorem exact_iff {I P : σ → Prop} {s t : σ} {as : List α} (hI : Preserved step free I)
    (hstep : ∀ s a t, I s → step s a = some t → (P t ↔ P s ∧ ok s a))
    (h : Run step free s as t) (hs : I s) (hP : P s) : P t ↔ Run step ok s as t := by
  induction h with
  | nil => exact iff_of_true hP .nil
  | @snoc as t u a run _ next ih =>
    rw [hstep t a u (run.invariant hI hs) next, ih]
    constructor
    · rintro ⟨hrun, hok⟩
      exact .snoc hrun hok next
    · intro hrun
      obtain ⟨t', hrun', hok, _⟩ := hrun.of_snoc
      obtain rfl := run.functional hrun'
      exact ⟨hrun', hok⟩

/-- Two conditions the steps of a run meet. -/
theorem and {s t : σ} {as : List α} (h : Run step ok s as t) (h' : Run step ok' s as t) :
    Run step (fun s a => ok s a ∧ ok' s a) s as t := by
  induction h with
  | nil => exact .nil
  | @snoc as t u a run meets next ih =>
    obtain ⟨t', run', meets', _⟩ := h'.of_snoc
    obtain rfl := run.functional run'
    exact .snoc (ih run') ⟨meets, meets'⟩ next

/-- **The always rule.** What follows from an invariant holds in every state on the way. -/
theorem always {I P : σ → Prop} {s t : σ} {as : List α} (hI : Preserved step ok I)
    (hP : ∀ s, I s → P s) (h : Run step ok s as t) (hs : I s) :
    Run step (fun s _ => P s) s as t ∧ P t := by
  have hend : ∀ {as t}, Run step ok s as t → P t := fun h => hP _ (h.invariant hI hs)
  refine ⟨?_, hend h⟩
  induction h with
  | nil => exact .nil
  | snoc run _ next ih => exact .snoc ih (hend run) next

/-- **The discipline rule.** Where a discipline `ok` keeps an invariant under which its steps meet
`ok'`, a run that keeps to the discipline is one whose steps meet `ok'`. -/
theorem strengthen {I : σ → Prop} {s t : σ} {as : List α} (hI : Preserved step ok I)
    (hok : ∀ s a t, I s → ok s a → step s a = some t → ok' s a) (h : Run step ok s as t)
    (hs : I s) : Run step ok' s as t := by
  induction h with
  | nil => exact .nil
  | snoc run meets next ih => exact .snoc ih (hok _ _ _ (run.invariant hI hs) meets next) next

/-- If a step that keeps `P` has met `ok'`, and the steps that meet it keep an invariant from which
`P` follows, then `P` holds all the way exactly in the runs whose steps meet it. -/
theorem always_iff {J P : σ → Prop} {s t : σ} {as : List α}
    (hJ : Preserved step (fun s a => ok s a ∧ ok' s a) J) (hP : ∀ s, J s → P s)
    (hmeets : ∀ s a t, step s a = some t → P t → ok' s a) (h : Run step ok s as t) (hs : J s) :
    (Run step (fun s _ => P s) s as t ∧ P t) ↔ Run step ok' s as t := by
  constructor
  · rintro ⟨hways, hend⟩
    induction h with
    | nil => exact .nil
    | snoc run _ next ih =>
      obtain ⟨x, hx, hlast, _⟩ := hways.of_snoc
      obtain rfl := run.functional hx
      exact .snoc (ih hx hlast) (hmeets _ _ _ next hend) next
  · intro h'
    exact (h.and h').always hJ hP hs

/-- **The rank rule.** If from every state of `I` that is not `ended` some step leads to one of
smaller rank, a run leads to a state that is. -/
theorem exists_of_rank {I ended : σ → Prop} {rank : σ → ℕ → Prop} {s : σ} {k : ℕ}
    (hnext : ∀ s k, I s → rank s k → ended s ∨
      ∃ a t l, ok s a ∧ step s a = some t ∧ I t ∧ rank t l ∧ l < k)
    (hs : I s) (hk : rank s k) : ∃ as t, Run step ok s as t ∧ I t ∧ ended t := by
  induction k using Nat.strongRecOn generalizing s with
  | ind k ih =>
    rcases hnext s k hs hk with hended | ⟨a, t, l, hok, hstep, ht, hl, hlt⟩
    · exact ⟨[], s, .nil, hs, hended⟩
    · obtain ⟨as, u, hrun, hu, hended⟩ := ih l hlt ht hl
      exact ⟨a :: as, u, .cons hok hstep hrun, hu, hended⟩

end Run

/-! ## Counting steps -/

/-- How many of the steps taken from `s` are of a kind. -/
def occurrences (step : σ → α → Option σ) (p : σ → α → Prop) [∀ s a, Decidable (p s a)] (s : σ) :
    List α → ℕ
  | [] => 0
  | a :: as => (if p s a then 1 else 0) +
      match step s a with
      | some t => occurrences step p t as
      | none => 0

theorem Run.occurrences_snoc {p : σ → α → Prop} [∀ s a, Decidable (p s a)] {s t u : σ}
    {as : List α} {a : α} (h : Run step ok s as t) (next : step t a = some u) :
    occurrences step p s (as ++ [a]) = occurrences step p s as + if p t a then 1 else 0 := by
  induction as generalizing s with
  | nil =>
    obtain rfl := h.eq_of_nil
    simp [occurrences, next]
  | cons b as ih =>
    obtain ⟨_, x, hx, hrest⟩ := h.of_cons
    simp only [List.cons_append, occurrences, hx, ih hrest]
    rw [Nat.add_assoc]

/-! ## What is seen of a run -/

variable {β : Type w}

/-- What `observe` shows of the steps taken from `s`. -/
def observed (step : σ → α → Option σ) (observe : σ → α → List β) (s : σ) : List α → List β
  | [] => []
  | a :: as => observe s a ++
      match step s a with
      | some t => observed step observe t as
      | none => []

theorem observed_snoc {observe : σ → α → List β} {s t u : σ} {as : List α} {a : α}
    (h : Run step ok s as t) (next : step t a = some u) :
    observed step observe s (as ++ [a]) = observed step observe s as ++ observe t a := by
  induction as generalizing s with
  | nil =>
    obtain rfl := h.eq_of_nil
    simp [observed, next]
  | cons b as ih =>
    obtain ⟨_, v, hv, hrest⟩ := h.of_cons
    simp only [List.cons_append, observed, hv, ih hrest, List.append_assoc]

/-- **The simulation rule.** Where under the invariant `I` every step shows labels that lead one
program on from what stands for the state before to what stands for the state after, so does every
run. -/
theorem Run.simulates {τ : Type x} {step' : τ → β → Option τ} {ok' : τ → β → Prop} {I : σ → Prop}
    {shows : σ → α → List β} {s t : σ} {as : List α} (abs : σ → τ)
    (hstep : ∀ s a t, I s → ok s a → step s a = some t →
      Run step' ok' (abs s) (shows s a) (abs t))
    (hI : Preserved step ok I) (h : Run step ok s as t) (hs : I s) :
    Run step' ok' (abs s) (observed step shows s as) (abs t) := by
  induction h with
  | nil => exact .nil
  | snoc run meets next ih =>
    rw [observed_snoc run next]
    exact ih.trans (hstep _ _ _ (run.invariant hI hs) meets next)

/-! ## Runs by evaluation -/

/-- A single thread is `0 : Fin 1` in the labels of a run. -/
instance neZero_one : @NeZero Nat Zero.ofOfNat0 1 := ⟨Nat.one_ne_zero⟩

/-- Two threads are `0` and `1 : Fin 2`. -/
instance neZero_two : @NeZero Nat Zero.ofOfNat0 2 := ⟨Nat.succ_ne_zero 1⟩

/-- Follow the labels, checking `ok` on the way: `none` when a step is not enabled or fails it. -/
def exec (step : σ → α → Option σ) (ok : σ → α → Prop) [∀ s a, Decidable (ok s a)] (s : σ) :
    List α → Option σ
  | [] => some s
  | a :: as => if ok s a then (step s a).bind fun t => exec step ok t as else none

theorem Run.of_exec [∀ s a, Decidable (ok s a)] :
    ∀ {as : List α} {s t : σ}, exec step ok s as = some t → Run step ok s as t
  | [], s, t, h => by
    simp only [exec, Option.some.injEq] at h
    exact h ▸ .nil
  | a :: as, s, t, h => by
    simp only [exec] at h
    split at h
    next meets =>
      obtain ⟨u, hu, hrest⟩ := Option.bind_eq_some_iff.mp h
      exact .cons meets hu (of_exec hrest)
    next => exact absurd h (by simp)

/-- A run whose labels are all enabled and all meet `ok`, with the state it ends in. -/
theorem Run.of_isSome [∀ s a, Decidable (ok s a)] {s : σ} {as : List α}
    (h : (exec step ok s as).isSome = true) : Run step ok s as ((exec step ok s as).get h) :=
  .of_exec (Option.some_get h).symm

instance : ∀ (s : σ) (a : α), Decidable ((free : σ → α → Prop) s a) :=
  fun _ _ => inferInstanceAs (Decidable True)

end Transition
