import NexusTask.Executor.Edges

/-!
# Dependencies first

Two results about runs without `cancel`: a task function is started only when the dependencies the
task was submitted with have ended, and a waiting task whose dependencies have ended is ready. The
first needs `PollComplete` and `MarkFresh`: the poll may fall between `add_task` and
`add_dependency`, and a stale `try_mark_enqueued` has the dependents of a task notified twice. The
second also needs every edge to be there when its dependency is notified for: `add_dependency`
counts a dependency that has already ended.
-/

set_option autoImplicit false

namespace NexusTask
namespace Executor

open Transition

variable {m n : Nat}

/-! ## Runs without `cancel` -/

def NotCancel : Action m n → Prop
  | .call _ (.cancel _) => False
  | _ => True

instance : (a : Action m n) → Decidable (NotCancel a)
  | .call _ (.cancel _) => .isFalse id
  | .call _ (.submit _) | .call _ (.submitWithDependencies _ _) | .call _ (.submitAsync _ _)
  | .call _ .waitForCompletion | .client _ _ | .poll _ | .scheduler | .take _ _
  | .worker _ _ _ => .isTrue trivial

/-- Somewhere in `cancel`. -/
def ClientPc.cancels : ClientPc → Bool
  | .cancelGet _ | .cancelFlag _ | .cancelStatus _ | .cancelPromise _ | .cancelException _
  | .cancelRecord _ | .cancelNotify _ | .cancelClear _ => true
  | _ => false

structure Uncancelled (s : State m n) : Prop where
  clients : ∀ c, (s.clients c).cancels = false
  tasks : ∀ u, (s.graph.task u).cancelled = false

theorem uncancelled_start : Uncancelled (start m n) := ⟨fun _ => rfl, fun _ => rfl⟩

namespace Uncancelled

variable {s t : State m n} {a : Action m n} {u : TaskId}

theorem not_target (h : Uncancelled s) : u ∉ s.cancelTarget a := by
  intro hu
  cases a with
  | client c now =>
    have hc := h.clients c
    cases hpc : s.clients c <;> simp_all [State.cancelTarget, ClientPc.cancels]
  | _ => exact absurd hu (by simp [State.cancelTarget])

theorem move (h : Uncancelled s) (hknown : Known s) (ha : NotCancel a) (hm : Move s a t) :
    Uncancelled t where
  clients c := by
    have hc := h.clients c
    rcases hm.clientMove c with hsame | hmove
    · rw [hsame]
      exact hc
    · generalize s.clients c = pc, t.clients c = pc' at hmove hc
      cases hmove with
      | @call op d act =>
        subst act
        cases op with
        | cancel x => exact absurd ha id
        | _ => rfl
      | quiet hstep => cases hstep <;> first | rfl | exact hc
      | cancelFlag | cancelStatus | cancelNotify => exact absurd hc (by simp [ClientPc.cancels])
      | _ => rfl
  tasks u := by
    cases hm.flags hknown u with
    | same hc he => exact hc.trans (h.tasks u)
    | clear clearer hc he => exact hc.trans (h.tasks u)
    | mark target free hc => exact hc.trans (h.tasks u)
    | cancel target fresh hc he => exact absurd target h.not_target

end Uncancelled

/-- The condition for the first result. -/
structure Undisturbed (s : State m n) (a : Action m n) : Prop where
  noCancel : NotCancel a
  poll : PollComplete s a
  mark : MarkFresh s a

instance (s : State m n) (a : Action m n) : Decidable (Undisturbed s a) :=
  decidable_of_iff (NotCancel a ∧ PollComplete s a ∧ MarkFresh s a)
    ⟨fun ⟨h₁, h₂, h₃⟩ => ⟨h₁, h₂, h₃⟩, fun ⟨h₁, h₂, h₃⟩ => ⟨h₁, h₂, h₃⟩⟩

/-- What holds of the executor in every undisturbed run. -/
structure InOrder (s : State m n) : Prop where
  sound : Sound s
  history : History s
  ended : Ended s
  uncancelled : Uncancelled s

theorem inOrder_start : InOrder (start m n) :=
  ⟨sound_start, history_start, ended_start, uncancelled_start⟩

namespace InOrder

variable {s t : State m n} {a : Action m n} {u d : TaskId}

theorem orderly (h : InOrder s) (hok : Undisturbed s a) : Orderly s a where
  poll := hok.poll
  mark := hok.mark
  cancel _ target _ := absurd target h.uncancelled.not_target

theorem move (h : InOrder s) (hok : Undisturbed s a) (hm : Move s a t) : InOrder t where
  sound := h.sound.move (h.orderly hok) hm
  history := h.history.move h.sound.known hm
  ended := h.ended.move h.sound (h.orderly hok) hm
  uncancelled := h.uncancelled.move h.sound.known hok.noCancel hm

/-- A launched task's dependencies have been notified for, and ended. -/
theorem dependency_finished (h : InOrder s) (hu : s.Launched u) (hd : d ∈ s.present u) :
    (s.graph.task d).Finished := by
  obtain ⟨hcomplete, hcount⟩ := h.sound.launch.settled u hu
  obtain ⟨_, hlinked | ⟨c, hunadded⟩⟩ := h.history.present u d hd
  · obtain ⟨e, he, hdependent, rfl⟩ := hlinked
    have hle : ∀ e ∈ s.edges, e.decs ≤ 1 := fun e he =>
      Nat.le_trans (h.history.decs e he) (h.ended.once e.dependency)
    have hone := h.history.tracks.decs_eq_one hle hcount he hdependent
    have hdecs := h.history.decs e he
    have hmem : e.dependency ∈ s.notified := List.count_pos_iff.mp (by omega)
    rcases (h.ended.concluded _ hmem).outcome with hcancelled | hfinished
    · exact absurd ((h.uncancelled.tasks _).symm.trans hcancelled) (by simp)
    · exact hfinished
  · rw [hcomplete c] at hunadded
    exact absurd hunadded List.not_mem_nil

end InOrder

/-- **Dependencies first.** In an undisturbed run without `cancel` a worker calls the function of a
task only when every dependency the task was submitted with, and that was in the graph then, has
ended in Completed or in Failed with no retry left. -/
theorem started_after_dependencies {as : List (Action m n)} {s : State m n}
    (run : Run step Undisturbed (start m n) as s) {w : Fin n} {t d : TaskId}
    (hw : s.workers w = .busy .callFunction t) (hd : d ∈ s.present t) :
    (s.graph.task d).Finished := by
  have hpreserved : Preserved (step (m := m) (n := n)) Undisturbed InOrder :=
    fun _ _ _ h hok hstep => h.move hok (.of_step hstep)
  have h := run.invariant hpreserved inOrder_start
  exact h.dependency_finished (.taken w (by rw [hw]; exact List.mem_singleton_self t)) hd

/-! ### Schedules of one client -/

namespace Schedule

/-- `k` steps of the client. -/
def client (k : Nat) : List (Action 1 1) := List.replicate k (.client 0 0)

/-- `k` steps of the worker, whose functions and callbacks return. -/
def worker (k : Nat) : List (Action 1 1) := List.replicate k (.worker 0 0 true)

/-- `submit`, up to its end: the task has no dependencies, so it is enqueued. -/
def submit (options : TaskOptions) : List (Action 1 1) := .call 0 (.submit options) :: client 9

/-- One poll that finds `t` ready, marks it and enqueues it. -/
def poll (t : TaskId) : List (Action 1 1) := [.poll [t], .scheduler, .scheduler]

/-- Task 2 depends on task 1, and is submitted before 1 is executed. -/
def chain : List (Action 1 1) :=
  submit {} ++ .call 0 (.submitWithDependencies {} [1]) :: client 7 ++
  .take 0 1 :: worker 13 ++ poll 2 ++ .take 0 2 :: worker 5

/-- Of two workers one has taken task 1, the first in its local queue. The scheduler polls between
`add_task` and `add_dependency` of task 2, which goes to the local queue of the other. -/
def premature : List (Action 1 2) :=
  .call 0 (.submit {}) :: List.replicate 9 (.client 0 0) ++
  .take 0 1 :: .call 0 (.submitWithDependencies {} [1]) :: List.replicate 3 (.client 0 0) ++
  [.poll [2], .scheduler, .scheduler] ++ .take 1 2 :: List.replicate 5 (.worker 1 0 true)

end Schedule

theorem started_after_dependencies_chain :
    (((exec step Undisturbed (start 1 1) Schedule.chain).get (by decide +kernel)).graph.task
      1).Finished :=
  started_after_dependencies (w := 0) (t := 2) (.of_isSome (by decide +kernel)) (by decide +kernel)
    (by decide +kernel)

/-- Task 2 about to be started by worker 1, while worker 0 has not begun with task 1. -/
def startedPremature : State 1 2 :=
  (exec step (fun _ a => NotCancel a) (start 1 2) Schedule.premature).get (by decide +kernel)

theorem started_before_dependencies : ¬ ∀ (as : List (Action 1 2)) (s : State 1 2),
    Run step (fun _ a => NotCancel a) (start 1 2) as s → ∀ w t d,
      s.workers w = .busy .callFunction t → d ∈ s.present t → (s.graph.task d).Finished := by
  intro hall
  have hfinished : (startedPremature.graph.task 1).Finished :=
    hall Schedule.premature _ (.of_isSome _) 1 2 1 (by decide +kernel) (by decide +kernel)
  exact absurd hfinished (by decide +kernel)

/-! ## No task is stuck behind dependencies that have ended -/

/-- No dependency is added once `notify_task_completed` was called for it. -/
def AddUnnotified (s : State m n) (a : Action m n) : Prop := ∀ d ∈ s.addTarget a, d ∉ s.notified

/-- The condition for the second result. -/
structure EdgesInTime (s : State m n) (a : Action m n) : Prop where
  undisturbed : Undisturbed s a
  add : AddUnnotified s a

instance (s : State m n) (a : Action m n) : Decidable (AddUnnotified s a) :=
  inferInstanceAs (Decidable (∀ d ∈ s.addTarget a, d ∉ s.notified))

instance (s : State m n) (a : Action m n) : Decidable (EdgesInTime s a) :=
  decidable_of_iff (Undisturbed s a ∧ AddUnnotified s a)
    ⟨fun ⟨h₁, h₂⟩ => ⟨h₁, h₂⟩, fun ⟨h₁, h₂⟩ => ⟨h₁, h₂⟩⟩

/-- An edge is decremented for by every notification of its dependency, and whoever stops working
on a task has it enqueued again or notified for. -/
structure Counted (s : State m n) : Prop where
  decs : ∀ e ∈ s.edges, e.decs = s.notified.count e.dependency
  clearing : ∀ w u, s.workers w = .busy .clear u → u ∈ s.notified
  resolved : ∀ u, (s.graph.task u).status.isWaiting = false →
    (s.graph.task u).enqueued = true ∨ u ∈ s.notified

theorem counted_start : Counted (start m n) where
  decs e he := absurd he (by simp [start])
  clearing w u h := absurd h (by simp [start])
  resolved u h := absurd h (by simp [start, TaskStatus.isWaiting])

namespace Counted

variable {s t : State m n} {a : Action m n} {u : TaskId}

theorem decs_move (h : Counted s) (hs : InOrder s) (hadd : AddUnnotified s a) (hm : Move s a t)
    {e : Edge} (he : e ∈ t.edges) : e.decs = t.notified.count e.dependency := by
  rcases hm.edge (fun f hf => (hs.history.ends f hf).2.1) he with
    ⟨f, hf, _, hdependency, hdecs⟩ | ⟨hzero, hnotified, _, _, htarget, _⟩
  · have hold := h.decs f hf
    rw [hdependency] at hold
    omega
  · rw [hzero, hnotified, List.count_eq_zero.mpr (hadd _ htarget)]

theorem clearing_move (h : Counted s) (hm : Move s a t) {w : Fin n}
    (hw : t.workers w = .busy .clear u) : u ∈ t.notified := by
  rcases hm.workerMove w with hsame | hmove
  · exact hm.notified_keep (h.clearing w u (hsame ▸ hw))
  · generalize s.workers w = pc at hmove
    rw [hw] at hmove
    cases hmove with
    | line act hline => exact absurd hline nofun
    | notifies notified => exact notified

theorem resolved_move (h : Counted s) (hs : InOrder s) (ht : InOrder t) (hm : Move s a t)
    (hu : (t.graph.task u).status.isWaiting = false) :
    (t.graph.task u).enqueued = true ∨ u ∈ t.notified := by
  cases hm.phase u with
  | same status canRetry =>
    rw [status] at hu
    rcases h.resolved u hu with henqueued | hnotified
    · cases hm.flags hs.sound.known u with
      | same hc he => exact .inl (he.trans henqueued)
      | clear clearer hc he =>
        rcases clearer with ⟨c, old⟩ | ⟨w, line, old, rfl | rfl⟩
        · exact absurd (hs.uncancelled.clients c) (by simp [old, ClientPc.cancels])
        · exact .inr (hm.notified_keep (h.clearing w u old))
        · have hwaiting : (s.graph.task u).status.isWaiting = true :=
            hs.sound.phase.workers w .resetFlag u old
          exact absurd (hu.symm.trans hwaiting) (by simp)
      | mark target free hc => exact absurd (free.symm.trans henqueued) (by simp)
      | cancel target fresh hc he => exact absurd target hs.uncancelled.not_target
    · exact .inr (hm.notified_keep hnotified)
  | born new status => exact absurd hu (by simp [status, TaskStatus.isWaiting])
  | line act old hline next =>
    exact .inl (ht.sound.tokens.enqueued_of_held (next ▸ WorkerPc.mem_held hline.holds.2))
  | cancelFlag target fresh status => exact absurd target hs.uncancelled.not_target
  | @cancelStatus c old next status =>
    exact absurd (hs.uncancelled.clients c) (by simp [old, ClientPc.cancels])
  | notified pos status => exact absurd hu (by simp [status, TaskStatus.isWaiting])

theorem move (h : Counted s) (hs : InOrder s) (hok : EdgesInTime s a) (hm : Move s a t) :
    Counted t where
  decs _ := h.decs_move hs hok.add hm
  clearing _ _ := h.clearing_move hm
  resolved _ := h.resolved_move hs (hs.move hok.undisturbed hm) hm

end Counted

/-- No call is in progress, no task is queued and none is being executed. -/
structure State.Quiet (s : State m n) : Prop where
  clients : ∀ c, s.clients c = .idle
  scheduler : s.scheduler.marked = []
  queued : s.queued = []
  workers : ∀ w, s.workers w = .idle

theorem State.Quiet.free {s : State m n} (h : s.Quiet) (htokens : Tokens s) (u : TaskId) :
    (s.graph.task u).enqueued = false := by
  have hclients : tally (ClientPc.marked ∘ s.clients) u = 0 :=
    tally_eq_zero (fun c => by rw [Function.comp_apply, h.clients c]; rfl) u
  have hworkers : tally (WorkerPc.held ∘ s.workers) u = 0 :=
    tally_eq_zero (fun w => by rw [Function.comp_apply, h.workers w]; rfl) u
  have hcopies := htokens.copies u
  unfold State.copies at hcopies
  rw [h.queued, h.scheduler, hclients, hworkers] at hcopies
  exact Bool.toNat_eq_zero.mp hcopies.symm

/-- **No task is stuck.** When nothing is going on in an undisturbed run whose edges were all added
in time, the next poll returns every waiting task whose named dependencies have ended. -/
theorem ready_of_dependencies_ended {as : List (Action m n)} {s : State m n}
    (run : Run step EdgesInTime (start m n) as s) (hquiet : s.Quiet) {t : TaskId}
    (ht : t ∈ s.graph.ids) (hwaiting : (s.graph.task t).status.isWaiting = true)
    (hended : ∀ d ∈ s.named t, d ∈ s.graph.ids → (s.graph.task d).status.isTerminal = true) :
    (s.graph.task t).isReady = true ∧ t ∈ s.graph.getReadyTasks := by
  have hpreserved : Preserved (step (m := m) (n := n)) EdgesInTime
      (fun s => InOrder s ∧ Counted s) := by
    rintro s a t ⟨horder, hcounted⟩ hok hstep
    have hm := Move.of_step hstep
    exact ⟨horder.move hok.undisturbed hm, hcounted.move horder hok hm⟩
  obtain ⟨horder, hcounted⟩ := run.invariant hpreserved ⟨inOrder_start, counted_start⟩
  have hfree := hquiet.free horder.sound.tokens
  have hcount : (s.graph.task t).dependenciesCount = 0 := by
    refine horder.history.tracks.count_eq_zero fun e he hdependent => ?_
    subst hdependent
    obtain ⟨_, hids, hnamed⟩ := horder.history.ends e he
    have hbegun : (s.graph.task e.dependency).status.isWaiting = false :=
      TaskStatus.not_waiting_of_terminal (hended _ hnamed hids)
    have hmem : e.dependency ∈ s.notified :=
      (hcounted.resolved _ hbegun).resolve_left (by simp [hfree])
    have hpos := List.count_pos_iff.mpr hmem
    have hle := horder.ended.once e.dependency
    rw [hcounted.decs e he]
    omega
  have hready := (Task.isReady_iff (s.graph.task t)).mpr ⟨hcount, hwaiting, hfree t⟩
  exact ⟨hready, DependencyGraph.mem_getReadyTasks.mpr ⟨ht, hready⟩⟩

/-- Task 2 depends on task 1 and is submitted before 1 is executed. -/
def Schedule.resolved : List (Action 1 1) :=
  submit {} ++ .call 0 (.submitWithDependencies {} [1]) :: client 7 ++ .take 0 1 :: worker 13

/-- Task 2 is submitted after task 1 has been executed. -/
def Schedule.late : List (Action 1 1) :=
  submit {} ++ .take 0 1 :: worker 13 ++ .call 0 (.submitWithDependencies {} [1]) :: client 7

def resolved : State 1 1 :=
  (exec step EdgesInTime (start 1 1) Schedule.resolved).get (by decide +kernel)

theorem ready_of_dependencies_ended_resolved :
    (resolved.graph.task 2).isReady = true ∧ 2 ∈ resolved.graph.getReadyTasks :=
  ready_of_dependencies_ended (.of_isSome _)
    ⟨by decide +kernel, by decide +kernel, by decide +kernel, by decide +kernel⟩
    (by decide +kernel) (by decide +kernel) (by decide +kernel)

/-- Task 2 waits for task 1, which ended before the edge was added. -/
def stuck : State 1 1 :=
  (exec step (fun _ a => NotCancel a) (start 1 1) Schedule.late).get (by decide +kernel)

theorem stuck_behind_ended : ¬ ∀ (as : List (Action 1 1)) (s : State 1 1),
    Run step (fun _ a => NotCancel a) (start 1 1) as s → s.Quiet → ∀ t ∈ s.graph.ids,
      (s.graph.task t).status.isWaiting = true →
      (∀ d ∈ s.named t, d ∈ s.graph.ids → (s.graph.task d).status.isTerminal = true) →
      (s.graph.task t).isReady = true := by
  intro hall
  have hquiet : stuck.Quiet :=
    ⟨by decide +kernel, by decide +kernel, by decide +kernel, by decide +kernel⟩
  have hready := hall Schedule.late _ (.of_isSome _) hquiet 2 (by decide +kernel)
    (by decide +kernel) (by decide +kernel)
  exact absurd hready (by decide +kernel)

end Executor
end NexusTask
