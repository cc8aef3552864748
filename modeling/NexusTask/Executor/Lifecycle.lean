import NexusTask.Executor.Order

/-!
# The life of a task

Seen on its own, a task is a small automaton over its status and its attempts: `Lifecycle`. The
steps of a run are shown to be steps of that automaton at every task, whatever the threads, the
scheduler and the other tasks do, as long as the run is orderly. That an execution is counted only
while `max_retries` allows another one is what bounds how often a function is called.
-/

set_option autoImplicit false

namespace NexusTask

/-! ## The automaton -/

namespace Task

/-- What one step may do to the status and the attempts of a task. -/
inductive Lifecycle (k k' : Task) : Prop
  | stays (status : k'.status = k.status) (attempts : k'.attempts = k.attempts)
  | readied (waiting : k.status.isWaiting = true) (status : k'.status = .ready)
      (attempts : k'.attempts = k.attempts)
  | begins (waiting : k.status.isWaiting = true) (status : k'.status = .running)
      (attempts : k'.attempts = k.attempts)
  | counts (running : k.status = .running) (left : k.attempts ≤ k.options.maxRetries)
      (status : k'.status = .running) (attempts : k'.attempts = k.attempts + 1)
  | ends (running : k.status = .running) (status : k'.status = .completed ∨ k'.status = .failed)
      (attempts : k'.attempts = k.attempts)
  | cancels (waiting : k.status.isWaiting = true) (status : k'.status = .cancelled)
      (attempts : k'.attempts = k.attempts)
  /-- Completed is left only when the callback has thrown. -/
  | retries (ended : k.status = .completed ∨ k.status = .failed)
      (left : k.attempts ≤ k.options.maxRetries) (status : k'.status = .pending)
      (attempts : k'.attempts = k.attempts)

/-- A task that may still be executed has an attempt left. -/
structure InBudget (k : Task) : Prop where
  attempts : k.attempts ≤ k.options.maxRetries + 1
  waiting : k.status.isWaiting = true → k.attempts ≤ k.options.maxRetries

/-- The automaton keeps to the budget. -/
theorem Lifecycle.inBudget {k k' : Task} (h : Lifecycle k k') (hk : k.InBudget)
    (hretries : k'.options.maxRetries = k.options.maxRetries) : k'.InBudget := by
  constructor
  · rw [hretries]
    cases h with
    | counts running left status attempts => rw [attempts]; exact Nat.succ_le_succ left
    | stays _ attempts | readied _ _ attempts | begins _ _ attempts | ends _ _ attempts
    | cancels _ _ attempts | retries _ _ _ attempts => rw [attempts]; exact hk.attempts
  · intro hwaiting
    rw [hretries]
    cases h with
    | stays status attempts => rw [attempts]; exact hk.waiting (status ▸ hwaiting)
    | readied waiting _ attempts => rw [attempts]; exact hk.waiting waiting
    | retries _ left _ attempts => rw [attempts]; exact left
    | begins _ status | counts _ _ status | cancels _ status =>
      rw [status] at hwaiting
      exact absurd hwaiting (by simp [TaskStatus.isWaiting])
    | ends _ status =>
      rcases status with status | status <;> rw [status] at hwaiting <;>
        exact absurd hwaiting (by simp [TaskStatus.isWaiting])

theorem attempts_le_of_retriesLeft {k : Task} (h : k.retriesLeft = true) :
    k.attempts ≤ k.options.maxRetries := by
  unfold retriesLeft at h
  split at h
  next => exact absurd h (by simp)
  next =>
    have hused := of_decide_eq_true h
    split at hused <;> omega

end Task

namespace Executor

open Transition

variable {m n : Nat}

/-! ## What a step does to the attempts -/

inductive AttemptStep (s : State m n) (a : Action m n) (t : State m n) (u : TaskId) : Prop
  | same (attempts : (t.graph.task u).attempts = (s.graph.task u).attempts)
  | born (new : u = s.nextTaskId) (attempts : (t.graph.task u).attempts = 0)
  | counted {w : Fin n} {now : Int} {ok : Bool} {line : Line} (act : a = .worker w now ok)
      (old : s.workers w = .busy .countAttempt u)
      (h : LineStep s u now ok .countAttempt line (t.graph.task u))
      (attempts : (t.graph.task u).attempts = (s.graph.task u).attempts + 1)

theorem LineStep.attempts {s : State m n} {u : TaskId} {now : Int} {ok : Bool} {k : Task}
    {line line' : Line} (h : LineStep s u now ok line line' k) (hline : line ≠ .countAttempt) :
    k.attempts = (s.graph.task u).attempts := by
  cases h with
  | countAttempt => exact absurd rfl hline
  | _ => rfl

theorem Move.attempts {s t : State m n} {a : Action m n} (hm : Move s a t) (u : TaskId) :
    AttemptStep s a t u := by
  have hmodify : ∀ {x : TaskId} {f : Task → Task}, t.graph = s.graph.modify x f →
      (f (s.graph.task x)).attempts = (s.graph.task x).attempts → AttemptStep s a t u := by
    intro x f hg hf
    refine .same ?_
    rw [hg]
    exact DependencyGraph.modify_frame (·.attempts) hf
  cases hm with
  | newTask now old =>
    by_cases hnew : u = s.nextTaskId
    · subst hnew
      refine .born rfl ?_
      rw [State.setClient_graph, State.newTask_graph, DependencyGraph.modify_self]
    · refine .same ?_
      rw [State.setClient_graph, State.newTask_graph, DependencyGraph.modify_of_ne hnew]
  | addDependency old =>
    exact .same (DependencyGraph.addDependency_frame (·.attempts) fun _ _ _ _ => rfl)
  | cancelNotify old =>
    exact .same (DependencyGraph.notifyTaskCompleted_frame (·.attempts) fun _ _ _ => rfl)
  | workerNotifies old =>
    exact .same (DependencyGraph.notifyTaskCompleted_frame (·.attempts) fun _ _ _ => rfl)
  | clientMarks old free => exact hmodify (State.setClient_graph.trans State.modify_graph) rfl
  | cancelFlag old fresh => exact hmodify (State.setClient_graph.trans State.modify_graph) rfl
  | cancelStatus old => exact hmodify (State.setClient_graph.trans State.modify_graph) rfl
  | cancelClear old => exact hmodify (State.setClient_graph.trans State.modify_graph) rfl
  | schedulerMarks old free =>
    exact hmodify (State.setScheduler_graph.trans State.modify_graph) rfl
  | @line w now ok x line line' k old hline =>
    by_cases hcount : line = .countAttempt
    · subst hcount
      by_cases hu : u = x
      · subst hu
        refine .counted rfl old (?_ : LineStep s u now ok _ line' _) ?_
        · rw [State.goto_graph, State.modify_self]
          exact hline
        · rw [State.goto_graph, State.modify_self]
          cases hline
          rfl
      · refine .same ?_
        rw [State.goto_graph, State.modify_graph, DependencyGraph.modify_of_ne hu]
    · exact hmodify (State.goto_graph.trans State.modify_graph) (hline.attempts hcount)
  | clears old => exact hmodify (State.finish_graph.trans State.modify_graph) rfl
  | resetsFlag old => exact hmodify (State.goto_graph.trans State.modify_graph) rfl
  | remarks old free => exact hmodify (State.goto_graph.trans State.modify_graph) rfl
  | _ => exact .same rfl

namespace Move

variable {s t : State m n} {a : Action m n}

theorem started_of_line (hm : Move s a t) {w : Fin n} {now : Int} {ok : Bool} {line : Line}
    {u : TaskId} (act : a = .worker w now ok) (old : s.workers w = .busy line u)
    (hline : line ≠ .callFunction) : t.started = s.started := by
  rcases hm.started with hsame | ⟨v, now', ok', x, act', oldv, _⟩
  · exact hsame
  · obtain ⟨rfl, _⟩ := Action.worker.inj (act.symm.trans act')
    exact absurd (WorkerPc.busy.inj (old.symm.trans oldv)).1 hline

theorem maxRetries (hm : Move s a t) (u : TaskId) (hlt : u < s.nextTaskId) :
    (t.graph.task u).options.maxRetries = (s.graph.task u).options.maxRetries := by
  rcases hm.fixed (·.options.maxRetries) (u := u) (fun _ _ _ _ _ _ _ _ _ _ => rfl) with
    hsame | ⟨hnew, _⟩
  · exact hsame
  · exact absurd hnew (Nat.ne_of_lt hlt)

end Move

/-! ## The invariant -/

/-- What a worker at a line relies on, where `started` calls of the function have been made. -/
def Line.Rations (started : Nat) (k : Task) : Line → Prop
  | .countAttempt | .recordRetry | .resetStatus => k.attempts ≤ k.options.maxRetries
  | .testDeadline | .callFunction => started < k.attempts
  | _ => True

/-- Every execution is within the budget of its task, and no call is made without an attempt
counted for it. -/
structure Rationed (s : State m n) : Prop where
  sound : Sound s
  inBudget : ∀ u, (s.graph.task u).InBudget
  workers : ∀ w line u, s.workers w = .busy line u →
    line.Rations (s.started.count u) (s.graph.task u)
  started : ∀ u, s.started.count u ≤ (s.graph.task u).attempts

theorem rationed_start : Rationed (start m n) where
  sound := sound_start
  inBudget _ := ⟨Nat.zero_le _, fun _ => Nat.le_refl 0⟩
  workers w line u h := absurd h (by simp [start])
  started _ := Nat.le_refl 0

namespace Rationed

variable {s t : State m n} {a : Action m n} {u : TaskId}

/-- The worker that has the task takes a step of the automaton. -/
theorem lifecycle_line (h : Rationed s) {w : Fin n} {now : Int} {ok : Bool} {line line' : Line}
    {k : Task} (old : s.workers w = .busy line u) (hline : LineStep s u now ok line line' k) :
    Task.Lifecycle (s.graph.task u) k := by
  have hpermits := h.sound.phase.workers w line u old
  have hrations := h.workers w line u old
  cases hline with
  | storeCancelled => exact absurd hpermits id
  | storeRunning => exact .begins hpermits rfl rfl
  | countAttempt => exact .counts hpermits hrations hpermits rfl
  | storeFailed => exact .ends hpermits (.inr rfl) rfl
  | storeCompleted => exact .ends hpermits (.inl rfl) rfl
  | catchAll =>
    cases hpermits with
    | inl hrunning => exact .ends hrunning (.inr rfl) rfl
    | inr hfailed => exact .stays hfailed.symm rfl
  | resetStatus => exact .retries hpermits hrations rfl rfl
  | _ => exact .stays rfl rfl

/-- A step is a step of the automaton at every task. -/
theorem lifecycle (h : Rationed s) (hm : Move s a t) (u : TaskId) :
    Task.Lifecycle (s.graph.task u) (t.graph.task u) := by
  have hsound := h.sound
  cases hm.attempts u with
  | counted act old hline attempts => exact h.lifecycle_line old hline
  | born new attempts =>
    have hunborn := hsound.known.unborn u new.ge
    refine .stays ?_ (by rw [attempts, hunborn])
    cases hm.phase u with
    | same status canRetry => exact status
    | born _ status => rw [status, hunborn]
    | line act old => exact absurd new (Nat.ne_of_lt (hsound.known.worker_lt old))
    | cancelFlag target fresh status => exact status
    | cancelStatus old =>
      exact absurd new (Nat.ne_of_lt (hsound.known.client_lt old (by simp [ClientPc.refers])))
    | notified pos => exact absurd pos (by simp [hunborn])
  | same attempts =>
    cases hm.phase u with
    | same status canRetry => exact .stays status attempts
    | born new status =>
      exact .stays (by rw [status, hsound.known.unborn u new.ge]) attempts
    | line act old hline next => exact h.lifecycle_line old hline
    | cancelFlag target fresh status => exact .stays status attempts
    | cancelStatus old next status =>
      exact .cancels (hsound.phase.cancelling _ u old) status attempts
    | notified pos status =>
      -- Nobody has found the task ready before its last dependency has finished.
      have hunlaunched : ¬ s.Launched u := fun hlaunched =>
        absurd pos (Int.not_lt.mpr (hsound.launch.settled u hlaunched).count)
      have hwaiting : (s.graph.task u).status.isWaiting = true := by
        by_contra hbegun
        exact hunlaunched (.begun (Bool.eq_false_iff.mpr hbegun))
      exact .readied hwaiting status attempts

/-! ### The workers -/

/-- A worker that stays where it is has its task for itself, unless it has given up the flag. -/
theorem frame (h : Rationed s) (hm : Move s a t) {w : Fin n} {line : Line}
    (old : s.workers w = .busy line u) (hline : line.holds = true)
    (hstill : t.workers w = s.workers w) :
    (t.graph.task u).attempts = (s.graph.task u).attempts ∧
      t.started.count u = s.started.count u := by
  have hheld : u ∈ (s.workers w).held := old ▸ WorkerPc.mem_held hline
  have hsame : ∀ {v now ok line'}, a = .worker v now ok → s.workers v = .busy line' u →
      line'.holds = true → False := by
    intro v now ok line' act oldv hv
    obtain rfl : w = v := h.sound.tokens.holder_unique hheld (oldv ▸ WorkerPc.mem_held hv)
    subst act
    exact hm.worker_ne hstill
  constructor
  · cases hm.attempts u with
    | same attempts => exact attempts
    | born new => exact absurd new (Nat.ne_of_lt (h.sound.known.worker_lt old))
    | counted act oldv => exact (hsame act oldv rfl).elim
  · rcases hm.started with hstarted | ⟨v, now, ok, x, act, oldv, hstarted⟩
    · rw [hstarted]
    · have hne : x ≠ u := by
        rintro rfl
        exact hsame act oldv rfl
      rw [hstarted, List.count_append, List.count_singleton]
      simp [hne]

/-- The line a worker comes to. -/
theorem rations_line (h : Rationed s) (hm : Move s a t) {w : Fin n} {now : Int} {ok : Bool}
    {line line' : Line} (act : a = .worker w now ok) (old : s.workers w = .busy line u)
    (hline : LineStep s u now ok line line' (t.graph.task u)) :
    line'.Rations (t.started.count u) (t.graph.task u) := by
  have hretries := hm.maxRetries u (h.sound.known.worker_lt old)
  have hold := h.workers w line u old
  have hpermits := h.sound.phase.workers w line u old
  generalize hk : t.graph.task u = k at hline hretries ⊢
  cases hline with
  | storeRunning => exact (h.inBudget u).waiting hpermits
  | countAttempt =>
    rw [hm.started_of_line act old (by simp)]
    exact Nat.lt_succ_of_le (h.started u)
  | inTime =>
    rw [hm.started_of_line act old (by simp)]
    exact hold
  | retry hleft => exact Task.attempts_le_of_retriesLeft hleft
  | recordRetry => exact hold
  | _ => trivial

theorem workers_move (h : Rationed s) (hm : Move s a t) {w : Fin n} {line : Line}
    (hw : t.workers w = .busy line u) : line.Rations (t.started.count u) (t.graph.task u) := by
  rcases hm.workerMove w with hstill | hmove
  · have old : s.workers w = .busy line u := hstill ▸ hw
    have hold := h.workers w line u old
    by_cases hremark : line = .remark
    · subst hremark
      trivial
    · obtain ⟨hattempts, hstarted⟩ := h.frame hm old (Line.holds_of_ne_remark hremark) hstill
      have hretries := hm.maxRetries u (h.sound.known.worker_lt old)
      unfold Line.Rations at hold ⊢
      rwa [hattempts, hstarted, hretries]
  · generalize hold : s.workers w = pc at hmove
    rw [hw] at hmove
    cases hmove with
    | line act hline => exact h.rations_line hm act hold hline
    | _ => trivial

theorem started_move (h : Rationed s) (hm : Move s a t) (u : TaskId) :
    t.started.count u ≤ (t.graph.task u).attempts := by
  have hle : (s.graph.task u).attempts ≤ (t.graph.task u).attempts := by
    cases hm.attempts u with
    | same attempts => exact attempts.ge
    | born new => rw [h.sound.known.unborn u new.ge]; exact Nat.zero_le _
    | counted _ _ _ attempts => rw [attempts]; exact Nat.le_succ _
  rcases hm.started with hsame | ⟨w, now, ok, x, act, old, hstarted⟩
  · rw [hsame]
    exact Nat.le_trans (h.started u) hle
  · rw [hstarted, List.count_append, List.count_singleton]
    by_cases hx : x = u
    · subst hx
      have hcalled : s.started.count x < (s.graph.task x).attempts := h.workers w _ x old
      simpa using Nat.le_trans hcalled hle
    · simpa [hx] using Nat.le_trans (h.started u) hle

theorem inBudget_move (h : Rationed s) (hm : Move s a t) (u : TaskId) :
    (t.graph.task u).InBudget := by
  by_cases hlt : u < s.nextTaskId
  · exact (h.lifecycle hm u).inBudget (h.inBudget u) (hm.maxRetries u hlt)
  · have hattempts : (t.graph.task u).attempts = 0 := by
      cases hm.attempts u with
      | same attempts => rw [attempts, h.sound.known.unborn u (Nat.le_of_not_lt hlt)]
      | born new attempts => exact attempts
      | counted act old => exact absurd (h.sound.known.worker_lt old) hlt
    constructor
    · rw [hattempts]
      exact Nat.zero_le _
    · intro _
      rw [hattempts]
      exact Nat.zero_le _

theorem move (h : Rationed s) (hok : Orderly s a) (hm : Move s a t) : Rationed t where
  sound := h.sound.move hok hm
  inBudget := h.inBudget_move hm
  workers _ _ _ := h.workers_move hm
  started := h.started_move hm

theorem of_run {as : List (Action m n)} (run : Run step Orderly (start m n) as s) : Rationed s :=
  run.invariant (fun _ _ _ h hok hstep => h.move hok (.of_step hstep)) rationed_start

end Rationed

/-- **The life of a task.** In an orderly run every step is a step of the automaton at every
task. -/
theorem lifecycle_of_step {as : List (Action m n)} {s t : State m n} {a : Action m n}
    (run : Run step Orderly (start m n) as s) (hstep : step s a = some t) (u : TaskId) :
    Task.Lifecycle (s.graph.task u) (t.graph.task u) :=
  (Rationed.of_run run).lifecycle (.of_step hstep) u

/-- The first call has thrown, and the worker is about to store Pending for the second. -/
def Schedule.resetting : List (Action 1 1) :=
  submit { maxRetries := 1 } ++ .take 0 1 :: worker 6 ++ .worker 0 0 false :: worker 5

def resetting : State 1 1 :=
  (exec step Orderly (start 1 1) Schedule.resetting).get (by decide +kernel)

def pendingAgain : State 1 1 := (step resetting (.worker 0 0 true)).get (by decide +kernel)

theorem lifecycle_of_step_resetting : (pendingAgain.graph.task 1).status = .pending ∧
    (resetting.graph.task 1).Lifecycle (pendingAgain.graph.task 1) :=
  ⟨by decide +kernel, lifecycle_of_step (.of_isSome _) (Option.some_get _).symm 1⟩

/-- **As often as allowed.** In an orderly run a function is called at most once for each attempt,
and a task has at most `max_retries + 1` attempts, whatever becomes of them. -/
theorem attempts_within_retries {as : List (Action m n)} {s : State m n}
    (run : Run step Orderly (start m n) as s) (u : TaskId) :
    s.started.count u ≤ (s.graph.task u).attempts ∧
      (s.graph.task u).attempts ≤ (s.graph.task u).options.maxRetries + 1 :=
  ⟨(Rationed.of_run run).started u, ((Rationed.of_run run).inBudget u).attempts⟩

theorem attempts_within_retries_resetting : resetting.started.count 1 = 1 ∧
    resetting.started.count 1 ≤ (resetting.graph.task 1).attempts ∧
      (resetting.graph.task 1).attempts ≤ (resetting.graph.task 1).options.maxRetries + 1 :=
  ⟨by decide +kernel, attempts_within_retries (.of_isSome _) 1⟩

end Executor
end NexusTask
