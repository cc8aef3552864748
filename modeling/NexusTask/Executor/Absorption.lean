import NexusTask.Executor.Decrements

/-!
# Cancelled for good

Once `cancelled_` is set nobody starts the task any more, unless a worker has passed the test of the
flag already: `Doomed`, which every run keeps. The status is another matter. `execute` and the retry
path look at the flag before they write it, but `notify_dependency_completed` stores Ready whenever
the counter comes to 0, over Cancelled too.
-/

set_option autoImplicit false

namespace NexusTask
namespace Executor

open Transition

variable {m n : Nat}

/-- The worker has passed a test of `cancelled_`, and stores a status or starts the function. -/
def Line.committed : Line → Bool
  | .storeRunning | .countAttempt | .testDeadline | .callFunction | .inFunction | .storeFailed
  | .catchAll | .storeCompleted | .testRetries | .recordRetry | .resetStatus => true
  | _ => false

/-- The task a worker is executing, or about to have retried. -/
@[simp] def WorkerPc.executing : WorkerPc → List TaskId
  | .busy line t => if line.committed then [t] else []
  | .idle => []

/-- The task a step calls `notify_task_completed` for. -/
def State.notifyTarget (s : State m n) : Action m n → List TaskId
  | .client c _ =>
    match s.clients c with
    | .cancelNotify d => [d]
    | _ => []
  | .worker w _ _ =>
    match s.workers w with
    | .busy .notify d => [d]
    | _ => []
  | _ => []

/-- No notification brings the counter of `u` to 0 while `u` is Cancelled. -/
def SparesCancelled (u : TaskId) (s : State m n) (a : Action m n) : Prop :=
  (s.graph.task u).status = .cancelled → ∀ d ∈ s.notifyTarget a,
    ¬ (0 < (s.graph.task u).dependenciesCount ∧
      (s.graph.task u).dependenciesCount ≤ (s.graph.task d).dependents.count u)

instance (u : TaskId) (s : State m n) (a : Action m n) : Decidable (SparesCancelled u s a) :=
  inferInstanceAs (Decidable (_ → ∀ d ∈ s.notifyTarget a, ¬ (_ ∧ _)))

/-- `cancel` has set the task's flag, and nobody is executing it. -/
structure Doomed (s : State m n) (u : TaskId) : Prop where
  known : Known s
  lt : u < s.nextTaskId
  flag : (s.graph.task u).cancelled = true
  workers : ∀ w, u ∉ (s.workers w).executing

theorem Doomed.line {s : State m n} {u : TaskId} (h : Doomed s u) {w : Fin n} {line : Line}
    (old : s.workers w = .busy line u) : line.committed = false := by
  have hw := h.workers w
  rw [old] at hw
  simpa using hw

/-- A line from which nothing is written is left for another such line, or after a test of
`cancelled_`. -/
theorem LineStep.committed {s : State m n} {u : TaskId} {now : Int} {ok : Bool} {k : Task}
    {line line' : Line} (h : LineStep s u now ok line line' k)
    (hc : (s.graph.task u).cancelled = true) (hline : line.committed = false) :
    line'.committed = false ∧ (k.status = (s.graph.task u).status ∨ k.status = .cancelled) := by
  cases h with
  | uncancelled hfresh => exact absurd (hfresh.symm.trans hc) (by simp)
  | retryUncancelled hfresh => exact absurd (hfresh.symm.trans hc) (by simp)
  | storeCancelled => exact ⟨rfl, .inr rfl⟩
  | storeRunning | countAttempt | late | inTime | call | returned | overran | thrown | storeFailed
  | catchAll | storeCompleted | retry | noRetry | recordRetry | resetStatus =>
    exact absurd hline (by simp [Line.committed])
  | _ => exact ⟨rfl, .inl rfl⟩

/-! ## One step -/

namespace Move

variable {s t : State m n} {a : Action m n} {u : TaskId}

/-- The client that has set the flag stores the status next. -/
theorem cancelStatus_stores (hm : Move s a t) {c : Fin m} (hc : s.clients c = .cancelStatus u)
    (hmoved : t.clients c ≠ s.clients c) : (t.graph.task u).status = .cancelled := by
  have hother : ∀ {d : Fin m} {pc : ClientPc}, t.clients = Function.update s.clients d pc →
      s.clients d = .cancelStatus u := by
    intro d pc hd
    by_cases hcd : c = d
    · rw [← hcd, hc]
    · exact absurd (by rw [hd, Function.update_of_ne hcd]) hmoved
  cases hm with
  | @cancelStatus d now x old =>
    obtain rfl := ClientPc.cancelStatus.inj (old.symm.trans (hother rfl))
    rw [State.setClient_graph, State.modify_self]
  | call old => exact absurd (old.symm.trans (hother rfl)) nofun
  | client hstep =>
    rw [hother rfl] at hstep
    exact absurd hstep nofun
  | newTask now old => exact absurd (old.symm.trans (hother rfl)) nofun
  | addTask old => exact absurd (old.symm.trans (hother rfl)) nofun
  | addDependency old => exact absurd (old.symm.trans (hother rfl)) nofun
  | clientMarks old free => exact absurd (old.symm.trans (hother rfl)) nofun
  | clientEnqueues old => exact absurd (old.symm.trans (hother rfl)) nofun
  | cancelFlag old fresh => exact absurd (old.symm.trans (hother rfl)) nofun
  | cancelNotify old => exact absurd (old.symm.trans (hother rfl)) nofun
  | cancelClear old => exact absurd (old.symm.trans (hother rfl)) nofun
  | _ => exact absurd rfl hmoved

theorem notified_status {d : TaskId} (hok : SparesCancelled u s a) (hd : d ∈ s.notifyTarget a)
    (hu : (s.graph.task u).status = .cancelled) :
    ((s.notify d).graph.task u).status = .cancelled := by
  rw [State.notify_graph]
  by_cases hids : d ∈ s.graph.ids
  · rw [DependencyGraph.notifyTaskCompleted_task hids,
      Task.notify_status_of_short _ _ (hok hu d hd), hu]
  · rw [DependencyGraph.notifyTaskCompleted_of_notMem hids, hu]

/-- A doomed task that is Cancelled stays so. -/
theorem cancelled_status (hm : Move s a t) (hok : SparesCancelled u s a) (h : Doomed s u)
    (hu : (s.graph.task u).status = .cancelled) : (t.graph.task u).status = .cancelled := by
  have hmodify : ∀ {x : TaskId} {f : Task → Task}, t.graph = s.graph.modify x f →
      (f (s.graph.task x)).status = (s.graph.task x).status →
      (t.graph.task u).status = .cancelled := by
    intro x f hg hf
    rw [hg, DependencyGraph.modify_frame (·.status) hf, hu]
  cases hm with
  | newTask now old =>
    rw [State.setClient_graph, State.newTask_graph,
      DependencyGraph.modify_of_ne (Nat.ne_of_lt h.lt)]
    exact hu
  | addDependency old => exact (State.addDependency_frame (·.status) fun _ _ _ _ => rfl).trans hu
  | @cancelStatus c now x old =>
    rw [State.setClient_graph]
    by_cases hx : u = x
    · subst hx
      rw [State.modify_self]
    · rw [State.modify_of_ne hx]
      exact hu
  | cancelNotify old => exact notified_status hok (by simp [State.notifyTarget, old]) hu
  | workerNotifies old => exact notified_status hok (by simp [State.notifyTarget, old]) hu
  | @line w now ok x line line' k old hline =>
    rw [State.goto_graph]
    by_cases hx : u = x
    · subst hx
      rw [State.modify_self]
      rcases (hline.committed h.flag (h.line old)).2 with hsame | hcancelled
      · exact hsame.trans hu
      · exact hcancelled
    · rw [State.modify_of_ne hx]
      exact hu
  | clientMarks old free => exact hmodify (State.setClient_graph.trans State.modify_graph) rfl
  | cancelFlag old fresh => exact hmodify (State.setClient_graph.trans State.modify_graph) rfl
  | cancelClear old => exact hmodify (State.setClient_graph.trans State.modify_graph) rfl
  | schedulerMarks old free => exact hmodify (State.setScheduler_graph.trans State.modify_graph) rfl
  | clears old => exact hmodify (State.finish_graph.trans State.modify_graph) rfl
  | resetsFlag old => exact hmodify (State.goto_graph.trans State.modify_graph) rfl
  | remarks old free => exact hmodify (State.goto_graph.trans State.modify_graph) rfl
  | _ => exact hu

end Move

namespace Doomed

variable {s t : State m n} {a : Action m n} {u : TaskId}

theorem move (h : Doomed s u) (hm : Move s a t) : Doomed t u where
  known := h.known.move hm
  lt := Nat.lt_of_lt_of_le h.lt hm.nextTaskId_le
  flag := (hm.flags h.known u).cancelled_mono h.flag
  workers w := by
    rcases hm.workerMove w with hsame | hmove
    · rw [hsame]
      exact h.workers w
    · generalize hold : s.workers w = pc, t.workers w = pc' at hmove
      cases hmove with
      | @line now ok x line line' act hline =>
        intro hu
        obtain ⟨hline', rfl⟩ : line'.committed = true ∧ u = x := by simpa using hu
        exact absurd ((hline.committed h.flag (h.line hold)).1.symm.trans hline') (by simp)
      | _ => simp [Line.committed]

/-- A doomed task is not started. -/
theorem started_move (h : Doomed s u) (hm : Move s a t) :
    t.started.count u = s.started.count u := by
  rcases hm.started with hsame | ⟨w, _, _, x, _, old, hnew⟩
  · rw [hsame]
  · have hne : x ≠ u := by
      rintro rfl
      exact absurd (h.line old) (by simp [Line.committed])
    rw [hnew, List.count_append, List.count_singleton]
    simp [hne]

end Doomed

/-! ## The rest of the run -/

/-- What holds from the moment a `cancel` of client `c` takes effect: `k` is how often the task had
been started then. -/
structure Absorbed (c : Fin m) (u : TaskId) (k : Nat) (s : State m n) : Prop where
  doomed : Doomed s u
  status : s.clients c = .cancelStatus u ∨ (s.graph.task u).status = .cancelled
  started : s.started.count u = k

theorem preserved_absorbed (c : Fin m) (u : TaskId) (k : Nat) :
    Preserved (step (m := m) (n := n)) (SparesCancelled u) (Absorbed c u k) := by
  intro s a t h hok hstep
  have hm := Move.of_step hstep
  refine ⟨h.doomed.move hm, ?_, (h.doomed.started_move hm).trans h.started⟩
  rcases h.status with hc | hstatus
  · by_cases hmoved : t.clients c = s.clients c
    · exact .inl (hmoved.trans hc)
    · exact .inr (hm.cancelStatus_stores hc hmoved)
  · exact .inr (hm.cancelled_status hok h.doomed hstatus)

/-- The step at which a `cancel` takes effect. -/
theorem Absorbed.of_cancelFlag {s t : State m n} {c : Fin m} {u : TaskId} {now : Int}
    (hknown : Known s) (hc : s.clients c = .cancelFlag u)
    (hfresh : (s.graph.task u).cancelled = false) (hidle : ∀ w, u ∉ (s.workers w).executing)
    (hstep : step s (.client c now) = some t) :
    Absorbed c u (s.started.count u) t := by
  have ht : t = (s.modify u fun k => { k with cancelled := true }).setClient c
      (.cancelStatus u) := by
    simp only [step, clientStep, hc, hfresh] at hstep
    exact (Option.some.inj hstep).symm
  have hm := Move.of_step hstep
  subst ht
  refine ⟨⟨hknown.move hm, ?_, ?_, hidle⟩, .inl (Function.update_self ..), rfl⟩
  · exact hknown.client_lt hc (by simp [ClientPc.refers])
  · rw [State.setClient_graph, State.modify_self]

/-- **Cancelled for good.** `cancel(u)` takes effect while nobody is executing `u`, and comes to its
return of true. If from then on no notification brings the counter of `u` to 0 while it is
Cancelled, its status is Cancelled in every later state. Its function is not started again. -/
theorem cancelled_for_good {as bs cs : List (Action m n)} {s s' t : State m n} {c : Fin m}
    {u : TaskId} {now now' : Int} (run : Run step free (start m n) as s)
    (hc : s.clients c = .cancelFlag u) (hfresh : (s.graph.task u).cancelled = false)
    (hidle : ∀ w, u ∉ (s.workers w).executing)
    (call : Run step (SparesCancelled u) s (.client c now :: bs) s')
    (hreturn : s'.clients c = .cancelClear u)
    (rest : Run step (SparesCancelled u) s' (.client c now' :: cs) t) :
    (t.graph.task u).status = .cancelled ∧ t.started.count u = s.started.count u := by
  have hpreserved : Preserved (step (m := m) (n := n)) free Known :=
    fun _ _ _ h _ hstep => h.move (.of_step hstep)
  have hknown := run.invariant hpreserved known_start
  obtain ⟨_, s₁, hstep, hcall⟩ := call.of_cons
  have h₁ := Absorbed.of_cancelFlag hknown hc hfresh hidle hstep
  have h' := hcall.invariant (preserved_absorbed c u _) h₁
  -- When `cancel` returns it has stored the status.
  have hstored : (s'.graph.task u).status = .cancelled :=
    h'.status.resolve_left fun h => absurd (hreturn.symm.trans h) nofun
  have hkept : Preserved (step (m := m) (n := n)) (SparesCancelled u)
      (fun t => Absorbed c u (s.started.count u) t ∧ (t.graph.task u).status = .cancelled) :=
    fun x a y hx hok hstep => ⟨preserved_absorbed c u _ x a y hx.1 hok hstep,
      (Move.of_step hstep).cancelled_status hok hx.1.doomed hx.2⟩
  obtain ⟨hend, hstatus⟩ := rest.invariant hkept ⟨h', hstored⟩
  exact ⟨hstatus, hend.started⟩

namespace Schedule

/-- Task 2 depends on task 1; `cancel(2)` has looked it up. -/
def cancelWaiting : List (Action 1 1) :=
  submit {} ++ .call 0 (.submitWithDependencies {} [1]) :: client 7 ++
  .call 0 (.cancel 2) :: client 1

/-- The rest of `cancel(2)` up to its last line. -/
def cancelEffect : List (Action 1 1) := client 5

/-- `cancel(2)` returns, and task 1 is executed up to its notification. -/
def completeFirst : List (Action 1 1) := client 1 ++ .take 0 1 :: worker 12

end Schedule

def cancelWaiting : State 1 1 :=
  (exec step free (start 1 1) Schedule.cancelWaiting).get (by decide +kernel)

def cancelReturning : State 1 1 :=
  (exec step (SparesCancelled 2) cancelWaiting Schedule.cancelEffect).get (by decide +kernel)

theorem cancelled_for_good_waiting :
    let later := (exec step (SparesCancelled 2) cancelReturning (Schedule.client 1 ++
      .take 0 1 :: Schedule.worker 11)).get (by decide +kernel)
    (later.graph.task 2).status = .cancelled ∧
      later.started.count 2 = cancelWaiting.started.count 2 :=
  cancelled_for_good (c := 0) (u := 2) (.of_isSome (by decide +kernel)) (by decide +kernel)
    (by decide +kernel) (by decide +kernel) (.of_isSome _) (by decide +kernel)
    (.of_isSome _)

/-- Task 1 has completed; task 2 is Ready, after its `cancel` has returned true. -/
def revived : State 1 1 :=
  (exec step free cancelReturning Schedule.completeFirst).get (by decide +kernel)

theorem cancelled_then_ready : ¬ ∀ (as bs cs : List (Action 1 1)) (s s' t : State 1 1) (u : TaskId),
    Run step free (start 1 1) as s → s.clients 0 = .cancelFlag u →
    (s.graph.task u).cancelled = false → (∀ w, u ∉ (s.workers w).executing) →
    Run step free s (.client 0 0 :: bs) s' → s'.clients 0 = .cancelClear u →
    Run step free s' (.client 0 0 :: cs) t →
    (t.graph.task u).status = .cancelled ∧ t.started.count u = s.started.count u := by
  intro hall
  have hcall : Run step (SparesCancelled 2) cancelWaiting Schedule.cancelEffect cancelReturning :=
    .of_isSome _
  have hkept := hall Schedule.cancelWaiting (Schedule.client 4) (.take 0 1 :: Schedule.worker 12)
    cancelWaiting cancelReturning revived 2 (.of_isSome _) (by decide +kernel) (by decide +kernel)
    (by decide +kernel) hcall.toFree (by decide +kernel) (.of_isSome _)
  exact absurd hkept.1 (by decide +kernel)

end Executor
end NexusTask
