import NexusTask.Executor.Cancel
import NexusTask.Executor.Waiting

/-!
# `TaskGroup::get_stats`

The mutex of a group keeps the calls on that group apart. It does not stop the executor: `get_stats`
asks for one status after the other, and between two of its questions the tasks go on, so the
numbers it returns need never have been true at one time. What `all_completed` makes of them is true
all the same, because a task that is found finished stays so.
-/

set_option autoImplicit false

namespace NexusTask
namespace Executor

open Transition

variable {m n : Nat}

/-- `TaskExecutor::get_task_status`. -/
def State.getTaskStatus (s : State m n) (t : TaskId) : TaskStatus :=
  if t ∈ s.graph.ids then (s.graph.task t).status else .failed

structure GroupStats where
  totalTasks : Nat := 0
  completed : Nat := 0
  failed : Nat := 0
  running : Nat := 0
  pending : Nat := 0
  cancelled : Nat := 0
  deriving DecidableEq, Repr

namespace GroupStats

variable (stats : GroupStats)

/-- The `switch` of `get_stats`. -/
def count : TaskStatus → GroupStats
  | .completed => { stats with completed := stats.completed + 1 }
  | .failed => { stats with failed := stats.failed + 1 }
  | .running => { stats with running := stats.running + 1 }
  | .pending | .ready => { stats with pending := stats.pending + 1 }
  | .cancelled => { stats with cancelled := stats.cancelled + 1 }

/-- `all_completed`, of what `get_stats` returned. -/
def allCompleted : Bool := stats.completed + stats.failed + stats.cancelled == stats.totalTasks

/-- The tasks in one of the statuses `all_completed` adds up. -/
def ended : Nat := stats.completed + stats.failed + stats.cancelled

/-- The tasks counted so far. -/
def counted : Nat := stats.ended + stats.running + stats.pending

variable {stats}

@[simp] theorem count_totalTasks (st : TaskStatus) :
    (stats.count st).totalTasks = stats.totalTasks := by
  cases st <;> rfl

theorem count_ended (st : TaskStatus) :
    (stats.count st).ended = stats.ended + st.isTerminal.toNat := by
  cases st <;> simp [count, ended, TaskStatus.isTerminal] <;> omega

theorem count_counted (st : TaskStatus) : (stats.count st).counted = stats.counted + 1 := by
  cases st <;> simp [count, counted, ended] <;> omega

end GroupStats

/-- A call of `get_stats` in progress: the executor, the ids still to be asked for, and the numbers
so far. History: what was answered. `TaskBatch::get_statuses` collects these answers. -/
structure Survey (m n : Nat) where
  executor : State m n
  rest : List TaskId
  stats : GroupStats
  answers : List (TaskId × TaskStatus)

namespace Survey

inductive Action (m n : Nat)
  | executor (a : Executor.Action m n)
  | ask

/-- `get_stats` is called for a group of these tasks. -/
def begin (s : State m n) (ids : List TaskId) : Survey m n where
  executor := s
  rest := ids
  stats := { totalTasks := ids.length }
  answers := []

def step (o : Survey m n) : Action m n → Option (Survey m n)
  | .executor a => (Executor.step o.executor a).map fun t => { o with executor := t }
  | .ask =>
    match o.rest with
    | [] => none
    | u :: rest =>
      let status := o.executor.getTaskStatus u
      some { o with rest, stats := o.stats.count status, answers := o.answers ++ [(u, status)] }

/-- The condition on a step: the executor's steps are settling, and no task is asked for while it is
Failed with a retry left. -/
def Settling (o : Survey m n) : Action m n → Prop
  | .executor a => Executor.Settling o.executor a
  | .ask => ∀ u ∈ o.rest.head?, (o.executor.graph.task u).status = .failed →
      (o.executor.graph.task u).canRetry = false

instance (o : Survey m n) : (a : Action m n) → Decidable (Settling o a)
  | .executor a => inferInstanceAs (Decidable (Executor.Settling o.executor a))
  | .ask => inferInstanceAs (Decidable (∀ u ∈ o.rest.head?, _ → _))

/-- The numbers are what the answers come to. -/
structure Adds (ids : List TaskId) (o : Survey m n) : Prop where
  ids_eq : o.answers.map (·.1) ++ o.rest = ids
  total : o.stats.totalTasks = ids.length
  counted : o.stats.counted = o.answers.length
  ended : o.stats.ended = o.answers.countP fun y => y.2.isTerminal

theorem adds_begin (s : State m n) (ids : List TaskId) : Adds ids (begin s ids) :=
  ⟨rfl, rfl, rfl, rfl⟩

theorem adds_step {ids : List TaskId} :
    Preserved (step (m := m) (n := n)) free (Adds ids) := by
  intro o a o' h _ hstep
  cases a with
  | executor a =>
    obtain ⟨t, _, rfl⟩ := Option.map_eq_some_iff.mp hstep
    exact ⟨h.ids_eq, h.total, h.counted, h.ended⟩
  | ask =>
    simp only [step] at hstep
    split at hstep
    next => exact absurd hstep (by simp)
    next u rest hrest =>
      obtain rfl := Option.some.inj hstep
      refine ⟨?_, ?_, ?_, ?_⟩
      · rw [← h.ids_eq, hrest]
        simp
      · exact (GroupStats.count_totalTasks _).trans h.total
      · rw [GroupStats.count_counted, h.counted, List.length_append]
        rfl
      · rw [GroupStats.count_ended, h.ended, List.countP_append, List.countP_singleton]
        cases (o.executor.getTaskStatus u).isTerminal <;> rfl

/-- When all have answered, each task is counted once, and `all_completed` says whether every answer
was a terminal status. -/
theorem Adds.allCompleted_iff {ids : List TaskId} {o : Survey m n} (h : Adds ids o)
    (hdone : o.rest = []) : o.stats.counted = o.stats.totalTasks ∧
      (o.stats.allCompleted = true ↔ ∀ y ∈ o.answers, y.2.isTerminal = true) := by
  have hlength : o.answers.length = ids.length := by
    rw [← h.ids_eq, hdone, List.append_nil, List.length_map]
  refine ⟨by rw [h.counted, h.total, hlength], ?_⟩
  rw [GroupStats.allCompleted, beq_iff_eq, h.total, ← hlength]
  show o.stats.ended = _ ↔ _
  rw [h.ended, List.countP_eq_length]

end Survey

/-- A task found in a terminal status, and not Failed with a retry left, is final. -/
theorem Settled.final_of_terminal {s : State m n} {u : TaskId} (h : Settled s)
    (hterminal : (s.graph.task u).status.isTerminal = true)
    (hretry : (s.graph.task u).status = .failed → (s.graph.task u).canRetry = false) :
    Final (s.graph.task u).status s u := by
  refine ⟨hterminal, rfl, hretry, fun w line old => ?_⟩
  have hfailing := h.failing w line u old
  have hpermits := h.sound.phase.workers w line u old
  cases line with
  | onFailure | testCancelled | testRetries => exact hpermits.elim hfailing hretry
  | recordRetry | resetStatus =>
    exact absurd (hfailing.2.symm.trans (hretry hfailing.1)) (by simp)
  | _ => trivial

namespace Survey

/-- Who answered with a terminal status is final, whatever the executor does while the others are
asked. -/
structure Closes (o : Survey m n) : Prop where
  settled : Settled o.executor
  known : ∀ u ∈ o.rest, u ∈ o.executor.graph.ids
  final : ∀ y ∈ o.answers, y.2.isTerminal = true → Final y.2 o.executor y.1

theorem closes_step : Preserved (step (m := m) (n := n)) Settling Closes := by
  intro o a o' h hok hstep
  cases a with
  | executor a =>
    obtain ⟨t, ht, rfl⟩ := Option.map_eq_some_iff.mp hstep
    have hm := Move.of_step ht
    exact ⟨h.settled.move hok hm, fun u hu => hm.ids_keep (h.known u hu),
      fun y hy hterminal => (h.final y hy hterminal).move h.settled hok hm⟩
  | ask =>
    simp only [step] at hstep
    split at hstep
    next => exact absurd hstep (by simp)
    next u rest hrest =>
      obtain rfl := Option.some.inj hstep
      have hids : u ∈ o.executor.graph.ids := h.known u (hrest ▸ List.mem_cons_self)
      have hanswer : o.executor.getTaskStatus u = (o.executor.graph.task u).status := if_pos hids
      refine ⟨h.settled, fun x hx => h.known x (hrest ▸ List.mem_cons_of_mem u hx), ?_⟩
      intro y hy hterminal
      rcases List.mem_append.mp hy with hold | hlast
      · exact h.final y hold hterminal
      · obtain rfl := List.mem_singleton.mp hlast
        rw [hanswer] at hterminal ⊢
        exact h.settled.final_of_terminal hterminal (hok u (by rw [hrest]; rfl))

end Survey

/-- **A finished group.** `get_stats` asks for the tasks of a group one by one while the executor
goes on. If no task is asked for while it is Failed with a retry left and `all_completed` makes true
of the numbers, then every task of the group keeps the status it answered with, in any continuation,
and is not started again. -/
theorem group_finished_for_good {as cs : List (Action m n)} {bs : List (Survey.Action m n)}
    {s t : State m n} {o : Survey m n} {ids : List TaskId}
    (run : Run step Settling (start m n) as s) (hids : ∀ u ∈ ids, u ∈ s.graph.ids)
    (asked : Run Survey.step Survey.Settling (.begin s ids) bs o) (hdone : o.rest = [])
    (hall : o.stats.allCompleted = true) (rest : Run step Settling o.executor cs t) :
    ∀ u ∈ ids, ∃ st, (u, st) ∈ o.answers ∧ (t.graph.task u).status = st ∧
      t.started.count u = o.executor.started.count u := by
  intro u hu
  have hs : Settled s := run.invariant (fun _ _ _ h hok hstep => h.move hok (.of_step hstep))
    settled_start
  have hadds := asked.toFree.invariant Survey.adds_step (Survey.adds_begin s ids)
  have hcloses := asked.invariant Survey.closes_step
    ⟨hs, hids, fun _ hy => absurd hy List.not_mem_nil⟩
  obtain ⟨y, hy, rfl⟩ : ∃ y ∈ o.answers, y.1 = u := by
    rw [← hadds.ids_eq, hdone, List.append_nil] at hu
    exact List.mem_map.mp hu
  have hfinal := hcloses.final y hy (((hadds.allCompleted_iff hdone).2.mp hall) y hy)
  have hkept : Preserved (step (m := m) (n := n)) Settling (fun t => Settled t ∧
      Final y.2 t y.1 ∧ t.started.count y.1 = o.executor.started.count y.1) := by
    intro x a z hx hok hstep
    obtain ⟨hsettled, hlasting, hcount⟩ := hx
    have hm := Move.of_step hstep
    exact ⟨hsettled.move hok hm, hlasting.move hsettled hok hm,
      (hlasting.started_move hsettled hm).trans hcount⟩
  obtain ⟨_, hend, hcount⟩ := rest.invariant hkept ⟨hcloses.settled, hfinal, rfl⟩
  exact ⟨y.2, hy, hend.status, hcount⟩

/-- Task 1 has completed; task 2 has been taken by the worker. -/
def Schedule.halfGroup : List (Action 1 1) :=
  submit {} ++ .take 0 1 :: worker 13 ++ submit {} ++ [.take 0 2]

def halfGroup : State 1 1 :=
  (exec step Settling (start 1 1) Schedule.halfGroup).get (by decide +kernel)

/-- Task 1 is asked for, then the worker finishes task 2, then task 2 is asked for. -/
def halfGroupAsked : Survey 1 1 :=
  (exec Survey.step Survey.Settling (.begin halfGroup [1, 2])
    (.ask :: (Schedule.worker 13).map .executor ++ [.ask])).get (by decide +kernel)

theorem group_finished_for_good_half :
    let later := (exec step Settling halfGroupAsked.executor [.poll []]).get (by decide +kernel)
    ∀ u ∈ [1, 2], ∃ st, (u, st) ∈ halfGroupAsked.answers ∧ (later.graph.task u).status = st ∧
      later.started.count u = halfGroupAsked.executor.started.count u :=
  group_finished_for_good (.of_isSome (by decide +kernel)) (by decide +kernel) (.of_isSome _)
    (by decide +kernel) (by decide +kernel) (.of_isSome _)

end Executor
end NexusTask
