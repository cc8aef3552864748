import NexusTask.Executor.Order

/-!
# One decrement for each edge

`notify_task_completed` is called at the end of a successful execution, after the last failed one,
and by `cancel`. In an orderly run only one of them is ever called for a task, so that an edge is
decremented for once at most and a counter is 0 only when every dependency has ended. A `cancel` of
a task that has been notified for, or that will still be executed, makes it two.
-/

set_option autoImplicit false

namespace NexusTask
namespace Executor

open Transition

variable {m n : Nat}

/-- What the counters should say of the edges. -/
structure DecrementedOnce (s : State m n) : Prop where
  once : ∀ e ∈ s.edges, e.decs ≤ 1
  nonneg : ∀ t, 0 ≤ (s.graph.task t).dependenciesCount
  /-- No task comes to 0 before its dependencies have finished or been cancelled. -/
  ended : ∀ e ∈ s.edges, (s.graph.task e.dependent).dependenciesCount = 0 →
    (s.graph.task e.dependency).cancelled = true ∨ (s.graph.task e.dependency).Finished

/-- What holds of the executor in every orderly run, the edges included. -/
structure Traced (s : State m n) : Prop where
  sound : Sound s
  history : History s
  ended : Ended s

theorem traced_start : Traced (start m n) := ⟨sound_start, history_start, ended_start⟩

namespace Traced

variable {s t : State m n} {a : Action m n}

theorem move (h : Traced s) (hok : Orderly s a) (hm : Move s a t) : Traced t where
  sound := h.sound.move hok hm
  history := h.history.move h.sound.known hm
  ended := h.ended.move h.sound hok hm

theorem decs_le_one (h : Traced s) {e : Edge} (he : e ∈ s.edges) : e.decs ≤ 1 :=
  Nat.le_trans (h.history.decs e he) (h.ended.once e.dependency)

theorem decrementedOnce (h : Traced s) : DecrementedOnce s where
  once _ he := h.decs_le_one he
  nonneg t := h.history.tracks.count_nonneg (fun _ he => h.decs_le_one he)
  ended e he hzero := by
    have hone := h.history.tracks.decs_eq_one (fun _ he => h.decs_le_one he) hzero.le he rfl
    have hdecs := h.history.decs e he
    have hmem : e.dependency ∈ s.notified := List.count_pos_iff.mp (by omega)
    exact (h.ended.concluded e.dependency hmem).outcome

end Traced

/-- **Once for each edge.** In an orderly run, `cancel` included, no edge is decremented for twice,
no counter is negative, and a counter is 0 only when every dependency of the task has finished or
been cancelled. -/
theorem decremented_once {as : List (Action m n)} {s : State m n}
    (run : Run step Orderly (start m n) as s) : DecrementedOnce s := by
  have hpreserved : Preserved (step (m := m) (n := n)) Orderly Traced :=
    fun _ _ _ h hok hstep => h.move hok (.of_step hstep)
  exact (run.invariant hpreserved traced_start).decrementedOnce

/-- `cancel`, of a task in the graph it has not taken effect on. -/
def Schedule.cancel (t : TaskId) : List (Action 1 1) := .call 0 (.cancel t) :: client 7

/-- Task 2 is cancelled after its dependency 1 has completed and before a poll; task 3 depends on
it. -/
def Schedule.cancelledReady : List (Action 1 1) :=
  submit {} ++ .call 0 (.submitWithDependencies {} [1]) :: client 7 ++
  .call 0 (.submitWithDependencies {} [2]) :: client 7 ++ .take 0 1 :: worker 13 ++ cancel 2

theorem decremented_once_cancelled :
    DecrementedOnce
      ((exec step Orderly (start 1 1) Schedule.cancelledReady).get (by decide +kernel)) :=
  decremented_once (.of_isSome (by decide +kernel))

/-- Task 3 depends on 1 and 2; task 1 is executed to its end, and cancelled then. -/
def Schedule.cancelledLate : List (Action 1 1) :=
  submit {} ++ submit {} ++ .call 0 (.submitWithDependencies {} [1, 2]) :: client 8 ++
  .take 0 1 :: worker 13 ++ cancel 1

/-- Task 2 has not been executed, and task 3 does not wait for it. -/
def readyEarly : State 1 1 :=
  (exec step free (start 1 1) Schedule.cancelledLate).get (by decide +kernel)

theorem decremented_twice : ¬ ∀ (as : List (Action 1 1)) (s : State 1 1),
    Run step free (start 1 1) as s → DecrementedOnce s := by
  intro hall
  have honce := (hall Schedule.cancelledLate readyEarly (.of_isSome _)).once
  exact absurd honce (by decide +kernel)

end Executor
end NexusTask
