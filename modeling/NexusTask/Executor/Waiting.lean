import NexusTask.Executor.Order

/-!
# `wait_for_completion`

When `all_completed` returns true nothing may happen to a task any more. A task can be Failed and
about to be retried at that moment, and a callback that throws sends a completed task into the
failure path; in orderly runs without either, a terminal task is final.
-/

set_option autoImplicit false

namespace NexusTask
namespace Executor

open Transition

variable {m n : Nat}

/-! ## The condition -/

/-- An exception leaves `on_success` only for a task that has no retry left. -/
def RaiseFinal (s : State m n) : Action m n → Prop
  | .worker w _ ok =>
    match s.workers w with
    | .busy line t => s.raises t ok line = true → (s.graph.task t).canRetry = false
    | .idle => True
  | _ => True

/-- When `all_completed` returns true to `wait_for_completion`, no task is Failed with a retry
left. -/
def PollFinal (s : State m n) : Action m n → Prop
  | .client c _ => s.clients c = .waiting → s.graph.allCompleted = true →
    ∀ t ∈ s.graph.ids, (s.graph.task t).status = .failed → (s.graph.task t).canRetry = false
  | _ => True

structure Settling (s : State m n) (a : Action m n) : Prop where
  orderly : Orderly s a
  raise : RaiseFinal s a
  final : PollFinal s a

instance (s : State m n) : (a : Action m n) → Decidable (RaiseFinal s a)
  | .worker w _ ok =>
    match h : s.workers w with
    | .busy line t =>
      decidable_of_iff (s.raises t ok line = true → (s.graph.task t).canRetry = false)
        (by simp only [RaiseFinal, h])
    | .idle => .isTrue (by simp only [RaiseFinal, h])
  | .call _ _ | .client _ _ | .poll _ | .scheduler | .take _ _ => .isTrue trivial

instance (s : State m n) : (a : Action m n) → Decidable (PollFinal s a)
  | .client c _ => inferInstanceAs (Decidable (s.clients c = .waiting →
      s.graph.allCompleted = true → ∀ t ∈ s.graph.ids, _ → _))
  | .call _ _ | .poll _ | .scheduler | .take _ _ | .worker _ _ _ => .isTrue trivial

instance (s : State m n) (a : Action m n) : Decidable (Settling s a) :=
  decidable_of_iff (Orderly s a ∧ RaiseFinal s a ∧ PollFinal s a)
    ⟨fun ⟨h₁, h₂, h₃⟩ => ⟨h₁, h₂, h₃⟩, fun ⟨h₁, h₂, h₃⟩ => ⟨h₁, h₂, h₃⟩⟩

/-! ## The failure path -/

/-- What the failure path knows of a task: Completed comes here only when it is not retried. -/
def Line.Failing (k : Task) : Line → Prop
  | .onFailure | .testCancelled | .testRetries => k.status = .completed → k.canRetry = false
  | .recordRetry | .resetStatus => k.status = .failed ∧ k.canRetry = true
  | _ => True

theorem Line.Failing.congr {k k' : Task} {line : Line} (h : line.Failing k)
    (hs : k'.status = k.status) (hr : k'.canRetry = k.canRetry) : line.Failing k' := by
  cases line <;> simp_all [Line.Failing]

theorem LineStep.failing {s : State m n} {u : TaskId} {now : Int} {ok : Bool} {k : Task}
    {line line' : Line} (h : LineStep s u now ok line line' k)
    (hc : (s.graph.task u).cancelled = false) (hp : line.Permits (s.graph.task u))
    (hraise : s.raises u ok line = true → (s.graph.task u).canRetry = false)
    (hf : line.Failing (s.graph.task u)) : line'.Failing k := by
  cases h with
  | storeCancelled => exact absurd hp id
  | catchAll => exact fun hcompleted => absurd hcompleted (by simp)
  | callbackRaised hok => exact fun _ => hraise (by simp [State.raises, hok])
  | callbackValueRaised hs => exact fun _ => hraise hs
  | valueRaised hs => exact fun _ => hraise hs
  | failure => exact hf
  | retryUncancelled _ => exact hf
  | retry hr =>
    have hcan : (s.graph.task u).canRetry = true := (Task.canRetry_of_uncancelled hc).trans hr
    cases hp with
    | inl hcompleted => exact absurd ((hf hcompleted).symm.trans hcan) (by simp)
    | inr hfailed => exact ⟨hfailed, hcan⟩
  | recordRetry => exact hf
  | _ => trivial

/-- What holds of the executor in every settling run. -/
structure Settled (s : State m n) : Prop where
  sound : Sound s
  failing : ∀ w line u, s.workers w = .busy line u → line.Failing (s.graph.task u)

theorem settled_start : Settled (start m n) :=
  ⟨sound_start, fun w line u h => absurd h (by simp [start])⟩

namespace Settled

variable {s t : State m n} {a : Action m n} {u : TaskId}

theorem not_cancelled_of_held (h : Settled s) {w : Fin n} {line : Line}
    (old : s.workers w = .busy line u) (hline : line.holds = true) :
    (s.graph.task u).cancelled = false :=
  h.sound.tokens.not_cancelled (h.sound.tokens.enqueued_of_held (old ▸ WorkerPc.mem_held hline))

theorem raise_of_act {w : Fin n} {now : Int} {ok : Bool} {line : Line} (hraise : RaiseFinal s a)
    (act : a = .worker w now ok) (old : s.workers w = .busy line u)
    (h : s.raises u ok line = true) : (s.graph.task u).canRetry = false := by
  subst act
  simp only [RaiseFinal, old] at hraise
  exact hraise h

theorem failing_move (h : Settled s) (hok : Settling s a) (hm : Move s a t) {w : Fin n}
    {line : Line} (hw : t.workers w = .busy line u) : line.Failing (t.graph.task u) := by
  rcases hm.workerMove w with hsame | hmove
  · have old : s.workers w = .busy line u := hsame ▸ hw
    by_cases hremark : line = .remark
    · subst hremark
      trivial
    · obtain ⟨status, canRetry⟩ := h.sound.held_frame hok.orderly.cancel hm old
        (Line.holds_of_ne_remark hremark) fun now ok line' next hline => by
          obtain ⟨rfl, _⟩ := WorkerPc.busy.inj (hw.symm.trans next)
          exact hline.ne rfl
      exact (h.failing w line u old).congr status canRetry
  · generalize hold : s.workers w = pc at hmove
    rw [hw] at hmove
    cases hmove with
    | @line now ok _ line₁ _ act hline =>
      exact hline.failing (h.not_cancelled_of_held hold hline.holds.1)
        (h.sound.phase.workers w _ u hold) (raise_of_act hok.raise act hold)
        (h.failing w _ u hold)
    | _ => trivial

theorem move (h : Settled s) (hok : Settling s a) (hm : Move s a t) : Settled t :=
  ⟨h.sound.move hok.orderly hm, fun _ _ _ => h.failing_move hok hm⟩

end Settled

/-! ## Final tasks -/

/-- The lines from which a worker does not retry its task. -/
def Line.Closing (k : Task) : Line → Prop
  | .onFailure | .testCancelled | .testRetries => k.canRetry = false
  | .recordRetry | .resetStatus => False
  | _ => True

theorem Line.Closing.congr {k k' : Task} {line : Line} (h : line.Closing k)
    (hr : k'.canRetry = k.canRetry) : line.Closing k' := by
  cases line <;> simp_all [Line.Closing]

/-- Nothing happens to the task any more: its status is `st` and stays so. -/
structure Final (st : TaskStatus) (s : State m n) (u : TaskId) : Prop where
  terminal : st.isTerminal = true
  status : (s.graph.task u).status = st
  retry : (s.graph.task u).status = .failed → (s.graph.task u).canRetry = false
  workers : ∀ w line, s.workers w = .busy line u → line.Closing (s.graph.task u)

theorem LineStep.final {s : State m n} {u : TaskId} {now : Int} {ok : Bool} {k : Task}
    {line line' : Line} (h : LineStep s u now ok line line' k)
    (hc : (s.graph.task u).cancelled = false) (hp : line.Permits (s.graph.task u))
    (hterminal : (s.graph.task u).status.isTerminal = true)
    (hretry : (s.graph.task u).status = .failed → (s.graph.task u).canRetry = false)
    (hraise : s.raises u ok line = true → (s.graph.task u).canRetry = false)
    (hclosing : line.Closing (s.graph.task u)) :
    k.status = (s.graph.task u).status ∧ k.canRetry = (s.graph.task u).canRetry ∧
      line'.Closing k := by
  -- At the lines before the end of the function the task is not terminal.
  have hwaiting : (s.graph.task u).status.isWaiting = true → False := fun h =>
    absurd (h.symm.trans (TaskStatus.not_waiting_of_terminal hterminal)) (by simp)
  have hrunning : (s.graph.task u).status = .running → False := fun h =>
    absurd hterminal (by simp [h, TaskStatus.isTerminal])
  cases h with
  | start | cancelled | uncancelled => exact ⟨rfl, rfl, trivial⟩
  | storeCancelled => exact absurd hp id
  | storeRunning => exact (hwaiting hp).elim
  | countAttempt | returned | overran | storeFailed | storeCompleted => exact (hrunning hp).elim
  | catchAll =>
    have hfailed : (s.graph.task u).status = .failed := hp.resolve_left hrunning
    have hcan := hretry hfailed
    exact ⟨hfailed.symm, rfl, hcan⟩
  | callbackRaised hok => exact ⟨rfl, rfl, hraise (by simp [State.raises, hok])⟩
  | callbackValueRaised hs => exact ⟨rfl, rfl, hraise hs⟩
  | valueRaised hs => exact ⟨rfl, rfl, hraise hs⟩
  | failure => exact ⟨rfl, rfl, hclosing⟩
  | retryUncancelled _ => exact ⟨rfl, rfl, hclosing⟩
  | retry hr =>
    have hcan : (s.graph.task u).canRetry = true := (Task.canRetry_of_uncancelled hc).trans hr
    exact absurd (hcan.symm.trans hclosing) (by simp)
  | recordRetry | resetStatus => exact absurd hclosing id
  | _ => exact ⟨rfl, rfl, trivial⟩

namespace Final

variable {s t : State m n} {a : Action m n} {u : TaskId} {st : TaskStatus}

theorem terminal' (hu : Final st s u) : (s.graph.task u).status.isTerminal = true := by
  rw [hu.status]
  exact hu.terminal

theorem launched (hu : Final st s u) : s.Launched u :=
  .begun (TaskStatus.not_waiting_of_terminal hu.terminal')

theorem not_waiting (hu : Final st s u) : ¬ (s.graph.task u).status.isWaiting = true := fun h =>
  absurd (h.symm.trans (TaskStatus.not_waiting_of_terminal hu.terminal')) (by simp)

/-- What a step of the worker that has the task does to it. -/
theorem line_move (hu : Final st s u) (hs : Settled s) (hok : Settling s a) {w : Fin n} {now : Int}
    {ok : Bool} {line line' : Line} {k : Task} (act : a = .worker w now ok)
    (old : s.workers w = .busy line u) (hline : LineStep s u now ok line line' k) :
    k.status = (s.graph.task u).status ∧ k.canRetry = (s.graph.task u).canRetry ∧
      line'.Closing k :=
  hline.final (hs.not_cancelled_of_held old hline.holds.1) (hs.sound.phase.workers w line u old)
    hu.terminal' hu.retry (Settled.raise_of_act hok.raise act old) (hu.workers w line old)

theorem frame (hu : Final st s u) (hs : Settled s) (hok : Settling s a) (hm : Move s a t) :
    (t.graph.task u).status = (s.graph.task u).status ∧
      (t.graph.task u).canRetry = (s.graph.task u).canRetry := by
  cases hm.phase u with
  | same status canRetry => exact ⟨status, canRetry⟩
  | born new status => exact absurd new (Nat.ne_of_lt (hs.sound.known.launched_lt hu.launched))
  | line act old hline next =>
    obtain ⟨hstatus, hcan, _⟩ := hu.line_move hs hok act old hline
    exact ⟨hstatus, hcan⟩
  | cancelFlag target fresh status =>
    exact absurd (hok.orderly.cancel u target fresh).waiting hu.not_waiting
  | cancelStatus old next status => exact absurd (hs.sound.phase.cancelling _ u old) hu.not_waiting
  | notified pos status =>
    have hsettled := hs.sound.launch.settled u hu.launched
    exact absurd pos (Int.not_lt.mpr hsettled.count)

theorem workers_move (hu : Final st s u) (hs : Settled s) (hok : Settling s a) (hm : Move s a t)
    {w : Fin n} {line : Line} (hw : t.workers w = .busy line u) :
    line.Closing (t.graph.task u) := by
  rcases hm.workerMove w with hsame | hmove
  · exact (hu.workers w line (hsame ▸ hw)).congr (hu.frame hs hok hm).2
  · generalize hold : s.workers w = pc at hmove
    rw [hw] at hmove
    cases hmove with
    | line act hline => exact (hu.line_move hs hok act hold hline).2.2
    | _ => trivial

theorem move (hu : Final st s u) (hs : Settled s) (hok : Settling s a) (hm : Move s a t) :
    Final st t u := by
  obtain ⟨status, canRetry⟩ := hu.frame hs hok hm
  refine ⟨hu.terminal, status.trans hu.status, fun hfailed => ?_,
    fun w line => hu.workers_move hs hok hm⟩
  rw [canRetry]
  exact hu.retry (status.symm.trans hfailed)

/-- A final task is not started. -/
theorem started_move (hu : Final st s u) (hs : Settled s) (hm : Move s a t) :
    t.started.count u = s.started.count u := by
  rcases hm.started with hsame | ⟨w, _, _, x, _, old, hnew⟩
  · rw [hsame]
  · have hne : x ≠ u := by
      rintro rfl
      have hrunning : (s.graph.task x).status = .running :=
        hs.sound.phase.workers w .callFunction x old
      exact absurd hu.terminal' (by simp [hrunning, TaskStatus.isTerminal])
    rw [hnew, List.count_append, List.count_singleton]
    simp [hne]

end Final

/-- When the poll of `wait_for_completion` finds every task terminal, every task is final. -/
theorem Settled.final_of_poll {s : State m n} {c : Fin m} {now : Int} (h : Settled s)
    (hok : PollFinal s (.client c now)) (hc : s.clients c = .waiting)
    (hall : s.graph.allCompleted = true) {u : TaskId} (hu : u ∈ s.graph.ids) :
    Final (s.graph.task u).status s u := by
  have hterminal := DependencyGraph.allCompleted_iff.mp hall u hu
  have hretry := hok hc hall u hu
  refine ⟨hterminal, rfl, hretry, fun w line old => ?_⟩
  have hfailing := h.failing w line u old
  have hpermits := h.sound.phase.workers w line u old
  cases line with
  | onFailure | testCancelled | testRetries => exact hpermits.elim hfailing hretry
  | recordRetry | resetStatus =>
    exact absurd (hfailing.2.symm.trans (hretry hfailing.1)) (by simp)
  | _ => trivial

/-- **For good.** In a settling run, when `all_completed` returns true to `wait_for_completion`, no
task in the graph is started again or changes its status in any continuation. -/
theorem finished_for_good {as bs : List (Action m n)} {s t : State m n} {c : Fin m} {now : Int}
    (run : Run step Settling (start m n) as s) (hc : s.clients c = .waiting)
    (hall : s.graph.allCompleted = true) (rest : Run step Settling s (.client c now :: bs) t) :
    ∀ u ∈ s.graph.ids, (t.graph.task u).status = (s.graph.task u).status ∧
      t.started.count u = s.started.count u := by
  intro u hu
  have hpreserved : Preserved (step (m := m) (n := n)) Settling Settled :=
    fun _ _ _ h hok hstep => h.move hok (.of_step hstep)
  have hs := run.invariant hpreserved settled_start
  have hfinal := hs.final_of_poll rest.of_cons.1.final hc hall hu
  have hkept : Preserved (step (m := m) (n := n)) Settling (fun t => Settled t ∧
      Final (s.graph.task u).status t u ∧ t.started.count u = s.started.count u) := by
    rintro x a y ⟨hx, hux, hcount⟩ hok hstep
    have hm := Move.of_step hstep
    exact ⟨hx.move hok hm, hux.move hx hok hm, (hux.started_move hx hm).trans hcount⟩
  obtain ⟨_, hend, hcount⟩ := rest.invariant hkept ⟨hs, hfinal, rfl⟩
  exact ⟨hend.status, hcount⟩

/-- A task that fails once, is retried and completes, and then a call of `wait_for_completion`. -/
def Schedule.awaited : List (Action 1 1) :=
  submit { maxRetries := 1 } ++ .take 0 1 :: worker 6 ++ .worker 0 0 false :: worker 9 ++
    .take 0 1 :: worker 13 ++ [.call 0 .waitForCompletion]

/-- Waiting, with the only task completed. -/
def awaited : State 1 1 := (exec step Settling (start 1 1) Schedule.awaited).get (by decide +kernel)

theorem finished_for_good_awaited :
    let later := (exec step Settling awaited [.client 0 0, .poll []]).get (by decide +kernel)
    (later.graph.task 1).status = (awaited.graph.task 1).status ∧
      later.started.count 1 = awaited.started.count 1 :=
  finished_for_good (c := 0) (.of_isSome (by decide +kernel)) (by decide +kernel)
    (by decide +kernel) (.of_isSome _) 1 (by decide +kernel)

def NotSubmit : Action m n → Prop
  | .call _ (.submit _) | .call _ (.submitWithDependencies _ _) | .call _ (.submitAsync _ _) => False
  | _ => True

instance : (a : Action m n) → Decidable (NotSubmit a)
  | .call _ (.submit _) | .call _ (.submitWithDependencies _ _) | .call _ (.submitAsync _ _) =>
    .isFalse id
  | .call _ (.cancel _) | .call _ .waitForCompletion | .client _ _ | .poll _ | .scheduler
  | .take _ _ | .worker _ _ _ => .isTrue trivial

/-- The function has thrown; `execute` has stored Failed, and the worker comes to the failure
hook. -/
def Schedule.failing : List (Action 1 1) :=
  submit { maxRetries := 1 } ++ .take 0 1 :: worker 6 ++ .worker 0 0 false :: worker 1

def failing : State 1 1 := (exec step free (start 1 1) Schedule.failing).get (by decide +kernel)

/-- `wait_for_completion` is called now. -/
def failingAwaited : State 1 1 :=
  (exec step (fun _ a => NotSubmit a) failing [.call 0 .waitForCompletion]).get (by decide +kernel)

/-- It has returned, and the worker has reset the status for a retry. -/
def retriedAfterwards : State 1 1 :=
  (exec step (fun _ a => NotSubmit a) failingAwaited (.client 0 0 :: Schedule.worker 5)).get
    (by decide +kernel)

theorem returned_too_early : ¬ ∀ (as bs cs : List (Action 1 1)) (s s' t : State 1 1),
    Run step free (start 1 1) as s →
    Run step (fun _ a => NotSubmit a) s (.call 0 .waitForCompletion :: bs) s' →
    s'.clients 0 = .waiting → s'.graph.allCompleted = true →
    Run step (fun _ a => NotSubmit a) s' (.client 0 0 :: cs) t →
    ∀ u ∈ s'.graph.ids, (t.graph.task u).status = (s'.graph.task u).status ∧
      t.started.count u = s'.started.count u := by
  intro hall
  have hfinal := hall Schedule.failing [] (Schedule.worker 5) failing failingAwaited
    retriedAfterwards (.of_isSome _) (.of_isSome _) (by decide +kernel) (by decide +kernel)
    (.of_isSome _) 1 (by decide +kernel)
  exact absurd hfinal.1 (by decide +kernel)

end Executor
end NexusTask
