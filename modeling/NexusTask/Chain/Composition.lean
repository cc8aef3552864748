import NexusTask.Chain.Order

/-!
# What a chain computes

A chain is to be the composition of its steps. Each step but the first is called with an empty
result, so that is what it is exactly where the results that are to be passed on are empty.
-/

set_option autoImplicit false

namespace NexusTask

open Transition

variable {α : Type} {m n : Nat}

/-- What the steps make of `initialInput`, each working on what the one before has returned. -/
def TaskChain.composition (chain : TaskChain α) (initialInput : TaskResult α) : TaskResult α :=
  chain.steps.foldl (fun result step => step.func result) initialInput

namespace Execution

open Executor (Action)
open Executor.Schedule (client worker poll)

variable {chain : TaskChain α} {x : TaskResult α} {p : Execution m n}

/-- The tasks of all steps have returned. -/
structure Finished (chain : TaskChain α) (p : Execution m n) : Prop where
  submitted : p.tasks.length = chain.steps.length
  returned : ∀ u ∈ p.tasks, u ∈ p.exec.returned

/-- The steps are called one after the other, the first with the initial input and each other with
what the step before has returned. -/
structure Composed (chain : TaskChain α) (x : TaskResult α) (p : Execution m n) : Prop where
  once : (p.calls chain x).map Prod.fst = List.range chain.steps.length
  first : ∀ input, (0, input) ∈ p.calls chain x → input = x
  next : ∀ i input, (i + 1, input) ∈ p.calls chain x → (i, input) ∈ p.results chain x
  last : ∀ result, (chain.steps.length - 1, result) ∈ p.results chain x ↔
    result = chain.composition x

/-- Nothing is lost between the steps: the first makes of the initial input, and each other but the
last of an empty result, an empty result. -/
def NothingToPass (chain : TaskChain α) (x : TaskResult α) : Prop :=
  ∀ i step, i + 1 < chain.steps.length → chain.steps[i]? = some step →
    step.func (ChainStep.input x i) = none

/-! ## The calls and the results -/

theorem map_idxOf {tasks : List TaskId} (h : tasks.Nodup) :
    tasks.map (fun u => tasks.idxOf u) = List.range tasks.length := by
  apply List.ext_getElem
  · simp
  · intro i hi hi'
    rw [List.getElem_map, List.getElem_range, h.idxOf_getElem]

theorem invocation_eq_some_iff {u : TaskId} {i : Nat} {f : Closure α} :
    p.invocation chain x u = some (i, f) ↔ u ∈ p.tasks ∧ i = p.tasks.idxOf u ∧
      ∃ step, chain.steps[i]? = some step ∧ f = step.closure x i := by
  unfold invocation
  split
  next hu =>
    constructor
    · intro h
      obtain ⟨step, hstep, heq⟩ := Option.map_eq_some_iff.mp h
      cases heq
      exact ⟨hu, rfl, step, hstep, rfl⟩
    · rintro ⟨_, rfl, step, hstep, rfl⟩
      rw [hstep]
      rfl
  next hu => simp [hu]

theorem mem_results {i : Nat} {result : TaskResult α} (h : Chained chain p)
    (hdone : Finished chain p) : (i, result) ∈ p.results chain x ↔
      ∃ step, chain.steps[i]? = some step ∧ result = step.func (ChainStep.input x i) := by
  unfold results
  rw [List.mem_filterMap]
  constructor
  · rintro ⟨u, _, heq⟩
    obtain ⟨⟨j, f⟩, hinvocation, heq⟩ := Option.map_eq_some_iff.mp heq
    obtain ⟨_, _, step, hstep, rfl⟩ := invocation_eq_some_iff.mp hinvocation
    cases heq
    exact ⟨step, hstep, rfl⟩
  · rintro ⟨step, hstep, rfl⟩
    have hi : i < p.tasks.length := hdone.submitted ▸ (List.getElem?_eq_some_iff.mp hstep).1
    have hmem := List.getElem_mem hi
    refine ⟨p.tasks[i], hdone.returned _ hmem, ?_⟩
    have hinvocation : p.invocation chain x p.tasks[i] = some (i, step.closure x i) :=
      invocation_eq_some_iff.mpr ⟨hmem, (h.nodup.idxOf_getElem i hi).symm, step, hstep, rfl⟩
    rw [hinvocation]
    rfl

/-- At the end all tasks of the chain have been started, in their order. -/
theorem filter_started (h : Chained chain p) (hfirst : StartedFirst p) (hdone : Finished chain p) :
    p.exec.started.filter (· ∈ p.tasks) = p.tasks := by
  obtain ⟨k, _, hfilter⟩ := hfirst
  have hsub : p.tasks ⊆ p.tasks.take k := by
    intro u hu
    rw [← hfilter]
    have hstarted := h.invoked.returned u (hdone.returned u hu)
    exact List.mem_filter.mpr ⟨hstarted, decide_eq_true hu⟩
  have hle := (h.nodup.subperm hsub).length_le
  rw [hfilter]
  apply List.take_of_length_le
  rw [List.length_take] at hle
  omega

theorem calls_eq (h : Chained chain p) (hfirst : StartedFirst p) (hdone : Finished chain p) :
    p.calls chain x = (List.range chain.steps.length).map fun i => (i, ChainStep.input x i) := by
  have hsome : ∀ u ∈ p.tasks, (p.invocation chain x u).map (fun call => (call.1, call.2.input)) =
      some (p.tasks.idxOf u, ChainStep.input x (p.tasks.idxOf u)) := by
    intro u hu
    have hlt : p.tasks.idxOf u < chain.steps.length :=
      hdone.submitted ▸ List.idxOf_lt_length_of_mem hu
    have hinvocation := (invocation_eq_some_iff (x := x)).mpr
      ⟨hu, rfl, _, List.getElem?_eq_getElem hlt, rfl⟩
    rw [hinvocation]
    rfl
  have hnone : ∀ u, u ∉ p.tasks → p.invocation chain x u = none := fun u hu => if_neg hu
  calc p.calls chain x
      = (p.exec.started.filter (· ∈ p.tasks)).filterMap fun u =>
          (p.invocation chain x u).map fun call => (call.1, call.2.input) := by
        unfold calls
        rw [List.filterMap_filter]
        apply List.filterMap_congr
        intro u _
        by_cases hu : u ∈ p.tasks
        · simp [hu]
        · simp [hu, hnone u hu]
    _ = p.tasks.map fun u => (p.tasks.idxOf u, ChainStep.input x (p.tasks.idxOf u)) := by
        rw [filter_started h hfirst hdone, List.filterMap_congr hsome, List.filterMap_eq_map']
    _ = (p.tasks.map fun u => p.tasks.idxOf u).map fun i => (i, ChainStep.input x i) := by
        rw [List.map_map]
        rfl
    _ = _ := by rw [map_idxOf h.nodup, hdone.submitted]

/-- If what is to be passed on is empty, the composition of the first `i` steps is what the next
step is called with. -/
theorem composition_take (hempty : NothingToPass chain x) {i : Nat} (hi : i < chain.steps.length) :
    (chain.steps.take i).foldl (fun result step => step.func result) x = ChainStep.input x i := by
  induction i with
  | zero => rfl
  | succ i ih =>
    have hlt : i < chain.steps.length := Nat.lt_of_succ_lt hi
    rw [← List.take_append_getElem hlt, List.foldl_concat, ih hlt]
    exact hempty i _ hi (List.getElem?_eq_getElem hlt)

theorem composition_eq (hempty : NothingToPass chain x) {i : Nat} (hi : i + 1 = chain.steps.length) :
    chain.composition x = chain.steps[i].func (ChainStep.input x i) := by
  have hlt : i < chain.steps.length := by omega
  calc chain.composition x
      = (chain.steps.take (i + 1)).foldl (fun result step => step.func result) x := by
        rw [hi, List.take_length]
        rfl
    _ = chain.steps[i].func
          ((chain.steps.take i).foldl (fun result step => step.func result) x) := by
        rw [← List.take_append_getElem hlt, List.foldl_concat]
    _ = _ := by rw [composition_take hempty hlt]

/-- **A chain that is run in dependency order computes the composition of its steps exactly where
every result that is to be passed on is empty.** -/
theorem composed_iff {es : List (Event m n)} (hsteps : 0 < chain.steps.length)
    (run : Run (Execution.step chain x) InOrder (Execution.start m n) es p)
    (hdone : Finished chain p) : Composed chain x p ↔ NothingToPass chain x := by
  obtain ⟨h, hfirst⟩ := startedFirst_of_run run
  have hcalls := calls_eq (x := x) h hfirst hdone
  have hmem : ∀ i input, (i, input) ∈ p.calls chain x ↔
      i < chain.steps.length ∧ input = ChainStep.input x i := by
    intro i input
    rw [hcalls]
    simp [eq_comm]
  constructor
  · intro hcomposed i step hi hstep
    obtain ⟨step', hstep', hresult⟩ :=
      (mem_results h hdone).mp (hcomposed.next i none ((hmem _ _).mpr ⟨hi, rfl⟩))
    obtain rfl := Option.some.inj (hstep.symm.trans hstep')
    exact hresult.symm
  · intro hempty
    refine ⟨?_, ?_, ?_, ?_⟩
    · rw [hcalls, List.map_map]
      exact List.map_id _
    · intro input hinput
      exact ((hmem _ _).mp hinput).2
    · intro i input hinput
      obtain ⟨hi, rfl⟩ := (hmem _ _).mp hinput
      have hlt : i < chain.steps.length := Nat.lt_of_succ_lt hi
      have hstep := List.getElem?_eq_getElem hlt
      exact (mem_results h hdone).mpr ⟨_, hstep, (hempty i _ hi hstep).symm⟩
    · intro result
      have hlast : chain.steps.length - 1 < chain.steps.length := by omega
      rw [mem_results h hdone, composition_eq hempty (Nat.succ_pred_eq_of_pos hsteps)]
      constructor
      · rintro ⟨step, hstep, rfl⟩
        obtain rfl := Option.some.inj ((List.getElem?_eq_getElem hlast).symm.trans hstep)
        rfl
      · rintro rfl
        exact ⟨_, List.getElem?_eq_getElem hlast, rfl⟩

/-! ### A chain of two steps -/

/-- 10, and twice what it is called with. -/
def twice : TaskChain Nat :=
  (TaskChain.new.andThen (.invocable fun _ => some 10)).andThen
    (.invocable fun input => input.map (2 * ·))

/-- Both tasks are submitted before a worker runs the first. -/
def oneByOne : List (Event 0 1) :=
  let run (actions : List (Action 1 1)) : List (Event 0 1) := actions.map .exec
  .submit :: run (client 9) ++ .submit :: run (client 7) ++
    run (.take 0 1 :: worker 13 ++ poll 2 ++ .take 0 2 :: worker 7)

/-- Its end. -/
def ranOneByOne : Execution 0 1 :=
  (Transition.exec (step twice none) InOrder (Execution.start 0 1) oneByOne).get (by decide +kernel)

theorem ranOneByOne_run :
    Run (step twice none) InOrder (Execution.start 0 1) oneByOne ranOneByOne :=
  .of_isSome (by decide +kernel)

theorem ranOneByOne_finished : Finished twice ranOneByOne :=
  ⟨by decide +kernel, by decide +kernel⟩

theorem composed_iff_twice : Composed twice none ranOneByOne ↔ NothingToPass twice none :=
  composed_iff (by decide) ranOneByOne_run ranOneByOne_finished

/-- The second step is called with nothing. -/
theorem twice_not_composed : ¬ ∀ (chain : TaskChain Nat) (x : TaskResult Nat)
    (es : List (Event 0 1)) (p : Execution 0 1), 0 < chain.steps.length →
      Run (step chain x) InOrder (Execution.start 0 1) es p → Finished chain p →
        Composed chain x p := by
  intro hall
  have hcomposed :=
    hall twice none oneByOne ranOneByOne (by decide) ranOneByOne_run ranOneByOne_finished
  have hnext := hcomposed.next 0 none (by decide +kernel)
  exact absurd hnext (by decide +kernel)

end Execution
end NexusTask
