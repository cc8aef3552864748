import NexusTask.Executor.Order

/-!
# Stopping an executor

`stop()` ends the scheduler thread and shuts the pool down. From the store of `running_` on
`ThreadPool::submit` throws, and the workers leave `worker_loop` at its head. A `System` is an
executor with the two flags, the loops of the scheduler and of the workers, the test of `running_`
in `submit`, and the threads that call `stop`.

The workers call `submit` as well: `handle_failure` resubmits a task that is retried, and it runs in
the `catch` of `worker_loop`, from where an exception ends the program. So does the exception of a
second call on a promise.
-/

set_option autoImplicit false

namespace NexusTask
namespace Executor

open Transition

variable {m n k : Nat}

/-! ## The system -/

/-- Where a loop is that a flag keeps running. -/
inductive LoopPc
  /-- The load of the flag. -/
  | test
  | body
  | left
  /-- An exception has left `scheduler_loop`. -/
  | threw
  deriving DecidableEq, Repr

inductive StopPc
  | idle
  /-- `scheduler_running_.exchange`. -/
  | exchange
  | joinScheduler
  /-- `running_.store`, and the notification of the workers. -/
  | store
  | joinWorkers
  deriving DecidableEq, Repr

/-- A thread that calls `ThreadPool::submit`. -/
inductive Caller (m n : Nat)
  | client (c : Fin m)
  | scheduler
  | worker (w : Fin n)
  deriving DecidableEq

structure System (m n k : Nat) where
  exec : State m n
  running : Bool
  schedulerRunning : Bool
  /-- Of a worker that is idle. -/
  workerLoops : Fin n → LoopPc
  /-- Between two polls. -/
  schedulerLoop : LoopPc
  /-- Who has found `running_` set, in `submit`. -/
  admitted : Caller m n → Bool
  stops : Fin k → StopPc

inductive Event (m n k : Nat)
  /-- A step of the executor's threads. -/
  | act (a : Action m n)
  /-- `running_.load` in `submit`. -/
  | testRunning (p : Caller m n)
  /-- `submit` gives up on a full queue of a stopped pool. -/
  | giveUp (p : Caller m n)
  /-- `running_.load` at the head of `worker_loop`. -/
  | workerLoop (w : Fin n)
  /-- Worker `w` has found no task, and is done with waiting. -/
  | noTask (w : Fin n)
  /-- `scheduler_running_.load` at the head of `scheduler_loop`. -/
  | schedulerLoop
  | callStop (j : Fin k)
  | stop (j : Fin k)

/-- The thread is at a call of `ThreadPool::submit`. -/
def State.submits (s : State m n) : Caller m n → Bool
  | .client c =>
    match s.clients c with
    | .enqueue _ => true
    | _ => false
  | .scheduler =>
    match s.scheduler with
    | .submitting _ _ => true
    | _ => false
  | .worker w =>
    match s.workers w with
    | .busy .resubmit _ => true
    | _ => false

/-- The thread that takes the step. -/
def Action.caller : Action m n → Option (Caller m n)
  | .client c _ => some (.client c)
  | .scheduler => some .scheduler
  | .worker w _ _ => some (.worker w)
  | .call _ _ | .poll _ | .take _ _ => none

namespace System

variable (S : System m n k)

/-- `submit` goes on only after its test, and a loop takes a task only in its body. -/
def enables (a : Action m n) : Bool :=
  (match a.caller with
    | some p => !S.exec.submits p || S.admitted p
    | none => true) &&
  (match a with
    | .take w _ => S.workerLoops w == .body
    | .poll _ => S.schedulerLoop == .body
    | _ => true)

/-- After a step of the executor's threads. A loop that has taken its tasks comes to its head. -/
def acted (a : Action m n) (t : State m n) : System m n k :=
  { S with
    exec := t
    admitted :=
      match a.caller with
      | some p => Function.update S.admitted p false
      | none => S.admitted
    workerLoops :=
      match a with
      | .take w _ => Function.update S.workerLoops w .test
      | _ => S.workerLoops
    schedulerLoop :=
      match a with
      | .poll _ => .test
      | _ => S.schedulerLoop }

/-- `submit` throws: a client gets the exception, the loops are left by it. -/
def throws : Caller m n → System m n k
  | .client c => { S with exec := S.exec.setClient c .idle }
  | .scheduler => { S with schedulerLoop := .threw }
  | .worker w =>
    match S.exec.workers w with
    | .busy _ t => { S with exec := S.exec.goto w t .terminated }
    | .idle => S

/-- `submit` returns without having enqueued the task. -/
def abandons (p : Caller m n) : System m n k :=
  { S with
    admitted := Function.update S.admitted p false
    exec :=
      match p with
      | .client c => S.exec.setClient c .idle
      | .scheduler =>
        match S.exec.scheduler with
        | .submitting _ rest => S.exec.setScheduler (.marking rest)
        | _ => S.exec
      | .worker w => S.exec.finish w }

def setStop (j : Fin k) (pc : StopPc) : System m n k :=
  { S with stops := Function.update S.stops j pc }

/-- The next step of `stop`. -/
def stopStep (j : Fin k) : Option (System m n k) :=
  match S.stops j with
  | .idle => none
  | .exchange =>
      some ({ S with schedulerRunning := false }.setStop j
        (if S.schedulerRunning then .joinScheduler else .store))
  | .joinScheduler => if S.schedulerLoop = .left then some (S.setStop j .store) else none
  | .store => some ({ S with running := false }.setStop j .joinWorkers)
  | .joinWorkers => if ∀ w, S.workerLoops w = .left then some (S.setStop j .idle) else none

def step : Event m n k → Option (System m n k)
  | .act a => if S.enables a then (Executor.step S.exec a).map (S.acted a) else none
  | .testRunning p =>
      if S.exec.submits p && !S.admitted p then
        some (if S.running then { S with admitted := Function.update S.admitted p true }
          else S.throws p)
      else none
  | .giveUp p =>
      if S.exec.submits p && S.admitted p && !S.running then some (S.abandons p) else none
  | .workerLoop w =>
      if S.exec.workers w = .idle ∧ S.workerLoops w = .test then
        some { S with
          workerLoops := Function.update S.workerLoops w (if S.running then .body else .left) }
      else none
  | .noTask w =>
      if S.exec.workers w = .idle ∧ S.workerLoops w = .body then
        some { S with workerLoops := Function.update S.workerLoops w .test }
      else none
  | .schedulerLoop =>
      if S.exec.scheduler = .idle ∧ S.schedulerLoop = .test then
        some { S with schedulerLoop := if S.schedulerRunning then .body else .left }
      else none
  | .callStop j => if S.stops j = .idle then some (S.setStop j .exchange) else none
  | .stop j => S.stopStep j

/-- An executor just started. -/
def start (m n k : Nat) : System m n k where
  exec := Executor.start m n
  running := true
  schedulerRunning := true
  workerLoops := fun _ => .test
  schedulerLoop := .test
  admitted := fun _ => false
  stops := fun _ => .idle

/-- No exception has left `worker_loop`. -/
def Contained : Prop := ∀ w u, S.exec.workers w ≠ .busy .terminated u

/-- A worker resubmits only to a running pool, and calls `set_exception` only on a promise that is
not yet satisfied. -/
def Handled : Event m n k → Prop
  | .testRunning (.worker _) => S.running = true
  | .act (.worker w _ _) =>
    match S.exec.workers w with
    | .busy .setException u => S.exec.satisfied u = false
    | _ => True
  | _ => True

instance (e : Event m n k) : Decidable (S.Handled e) := by
  unfold Handled
  split
  · infer_instance
  · split <;> infer_instance
  · infer_instance

end System

/-! ## What an event does to the executor -/

inductive ExecMove (S T : System m n k) : Event m n k → Prop
  | act {a : Action m n} (enabled : S.enables a = true)
      (step : Executor.step S.exec a = some T.exec) : ExecMove S T (.act a)
  | admits {p : Caller m n} (running : S.running = true) (exec : T.exec = S.exec) :
      ExecMove S T (.testRunning p)
  | clientThrows {c : Fin m} {u : TaskId} (stopped : S.running = false)
      (old : S.exec.clients c = .enqueue u) (exec : T.exec = S.exec.setClient c .idle) :
      ExecMove S T (.testRunning (.client c))
  | schedulerThrows (stopped : S.running = false) (exec : T.exec = S.exec) :
      ExecMove S T (.testRunning .scheduler)
  | workerThrows {w : Fin n} {u : TaskId} (stopped : S.running = false)
      (old : S.exec.workers w = .busy .resubmit u) (exec : T.exec = S.exec.goto w u .terminated) :
      ExecMove S T (.testRunning (.worker w))
  | clientGivesUp {c : Fin m} {u : TaskId} (old : S.exec.clients c = .enqueue u)
      (exec : T.exec = S.exec.setClient c .idle) : ExecMove S T (.giveUp (.client c))
  | schedulerGivesUp {u : TaskId} {rest : List TaskId}
      (old : S.exec.scheduler = .submitting u rest)
      (exec : T.exec = S.exec.setScheduler (.marking rest)) : ExecMove S T (.giveUp .scheduler)
  | workerGivesUp {w : Fin n} {u : TaskId} (old : S.exec.workers w = .busy .resubmit u)
      (exec : T.exec = S.exec.finish w) : ExecMove S T (.giveUp (.worker w))
  /-- A flag, or the place of a loop or of a call of `stop`. -/
  | aside {e : Event m n k} (act : ∀ a, e ≠ .act a) (tests : ∀ p, e ≠ .testRunning p)
      (gives : ∀ p, e ≠ .giveUp p) (exec : T.exec = S.exec) : ExecMove S T e

/-- The workers move by their own steps, or by an exception or a return of `submit`. -/
inductive WorkersStep (S : System m n k) (e : Event m n k) (T : System m n k) : Prop
  | same (workers : T.exec.workers = S.exec.workers)
  | act {a : Action m n} (act : e = .act a) (step : Executor.step S.exec a = some T.exec)
  | throws {w : Fin n} {u : TaskId} (act : e = .testRunning (.worker w)) (stopped : S.running = false)
      (old : S.exec.workers w = .busy .resubmit u)
      (workers : T.exec.workers = Function.update S.exec.workers w (.busy .terminated u))
  | abandons {w : Fin n} {u : TaskId} (old : S.exec.workers w = .busy .resubmit u)
      (workers : T.exec.workers = Function.update S.exec.workers w .idle)

theorem State.submits_worker {s : State m n} {w : Fin n} (h : s.submits (.worker w) = true) :
    ∃ u, s.workers w = .busy .resubmit u := by
  simp only [State.submits] at h
  split at h
  next u hw => exact ⟨u, hw⟩
  next => exact absurd h (by simp)

theorem State.submits_client {s : State m n} {c : Fin m} (h : s.submits (.client c) = true) :
    ∃ u, s.clients c = .enqueue u := by
  simp only [State.submits] at h
  split at h
  next u hc => exact ⟨u, hc⟩
  next => exact absurd h (by simp)

theorem State.submits_scheduler {s : State m n} (h : s.submits .scheduler = true) :
    ∃ u rest, s.scheduler = .submitting u rest := by
  simp only [State.submits] at h
  split at h
  next u rest hs => exact ⟨u, rest, hs⟩
  next => exact absurd h (by simp)

namespace System

variable {S T : System m n k} {e : Event m n k} {w : Fin n} {u : TaskId}

theorem stopStep_exec {j : Fin k} (h : S.stopStep j = some T) : T.exec = S.exec := by
  unfold stopStep at h
  split at h
  next => exact absurd h (by simp)
  next => obtain rfl := Option.some.inj h; rfl
  next =>
    split at h
    next => obtain rfl := Option.some.inj h; rfl
    next => exact absurd h (by simp)
  next => obtain rfl := Option.some.inj h; rfl
  next =>
    split at h
    next => obtain rfl := Option.some.inj h; rfl
    next => exact absurd h (by simp)

theorem execMove (h : S.step e = some T) : ExecMove S T e := by
  cases e with
  | act a =>
    simp only [step] at h
    split at h
    next henables =>
      obtain ⟨t, ht, rfl⟩ := Option.map_eq_some_iff.mp h
      exact .act henables ht
    next => exact absurd h (by simp)
  | testRunning p =>
    simp only [step] at h
    split at h
    next hp =>
      have hsubmits := (Bool.and_eq_true_iff.mp hp).1
      obtain rfl := Option.some.inj h
      cases hrunning : S.running with
      | true => exact .admits hrunning rfl
      | false =>
        cases p with
        | client c =>
          obtain ⟨u, old⟩ := State.submits_client hsubmits
          exact .clientThrows hrunning old rfl
        | scheduler => exact .schedulerThrows hrunning rfl
        | worker w =>
          obtain ⟨u, old⟩ := State.submits_worker hsubmits
          exact .workerThrows hrunning old (by simp [throws, old])
    next => exact absurd h (by simp)
  | giveUp p =>
    simp only [step] at h
    split at h
    next hp =>
      have hsubmits := (Bool.and_eq_true_iff.mp (Bool.and_eq_true_iff.mp hp).1).1
      obtain rfl := Option.some.inj h
      cases p with
      | client c =>
        obtain ⟨u, old⟩ := State.submits_client hsubmits
        exact .clientGivesUp old rfl
      | scheduler =>
        obtain ⟨u, rest, old⟩ := State.submits_scheduler hsubmits
        exact .schedulerGivesUp old (by simp [abandons, old])
      | worker w =>
        obtain ⟨u, old⟩ := State.submits_worker hsubmits
        exact .workerGivesUp old rfl
    next => exact absurd h (by simp)
  | stop j => exact .aside (by simp) (by simp) (by simp) (stopStep_exec h)
  | workerLoop | noTask | schedulerLoop | callStop =>
    refine .aside (by simp) (by simp) (by simp) ?_
    simp only [step] at h
    split at h
    next => obtain rfl := Option.some.inj h; rfl
    next => exact absurd h (by simp)

theorem workersStep (h : S.step e = some T) : WorkersStep S e T := by
  cases execMove h with
  | act enabled step => exact .act rfl step
  | workerThrows stopped old exec => exact .throws rfl stopped old (exec ▸ rfl)
  | workerGivesUp old exec => exact .abandons old (exec ▸ rfl)
  | admits _ exec | clientThrows _ _ exec | schedulerThrows _ exec | clientGivesUp _ exec
  | schedulerGivesUp _ exec | aside _ _ _ exec => exact .same (exec ▸ rfl)

/-! ## Exceptions -/

/-- A handled event lets no exception out. -/
theorem contained_step (hok : S.Handled e) (h : S.step e = some T) (hS : S.Contained) :
    T.Contained := by
  intro v u hv
  cases workersStep h with
  | same workers => exact hS v u (workers ▸ hv)
  | @act a act hstep =>
    rcases (Move.of_step hstep).workerMove v with hsame | hmove
    · exact hS v u (hsame ▸ hv)
    · generalize hold : S.exec.workers v = pc at hmove
      rw [hv] at hmove
      cases hmove with
      | line hact hline =>
        -- Of the worker's own steps only a `set_exception` that throws ends its loop.
        generalize T.exec.graph.task u = t at hline
        cases hline with
        | exceptionRaised hs =>
          subst act hact
          simp only [Handled, hold] at hok
          exact absurd (hok.symm.trans hs) (by simp)
  | throws act stopped old workers =>
    subst act
    exact absurd (stopped.symm.trans hok) (by simp)
  | @abandons w x old workers =>
    rw [workers] at hv
    rcases Threads.update_cases (· = WorkerPc.busy .terminated u) hv with hold | ⟨_, hnew⟩
    · exact hS v u hold
    · exact absurd hnew nofun

/-- Any other event is an exception out of `worker_loop`. -/
theorem escapes_of_not_handled (hnot : ¬ S.Handled e) (h : S.step e = some T) : ¬ T.Contained := by
  intro hT
  cases execMove h with
  | @workerThrows w u stopped old exec =>
    refine hT w u ?_
    rw [exec]
    exact Function.update_self ..
  | @admits p running exec =>
    cases p with
    | worker w => exact hnot running
    | _ => exact hnot trivial
  | @act a enabled hstep =>
    cases a with
    | worker w now ok =>
      simp only [Handled] at hnot
      split at hnot
      next u old =>
        have hsatisfied : S.exec.satisfied u = true := Bool.eq_true_of_not_eq_false hnot
        simp only [Executor.step, old, lineStep, hsatisfied] at hstep
        refine hT w u ?_
        rw [← Option.some.inj hstep]
        exact Function.update_self ..
      next => exact hnot trivial
    | _ => exact hnot trivial
  | clientThrows | schedulerThrows | clientGivesUp | schedulerGivesUp | workerGivesUp =>
    exact hnot trivial
  | aside act tests gives exec =>
    cases e with
    | act a => exact act a rfl
    | testRunning p => exact tests p rfl
    | _ => exact hnot trivial

/-- The thread an exception has left stays where it is. -/
theorem contained_of_step (h : S.step e = some T) (hT : T.Contained) : S.Contained := by
  intro v u old
  apply hT v u
  cases workersStep h with
  | same workers => rw [workers, old]
  | act act hstep =>
    rcases (Move.of_step hstep).workerMove v with hsame | hmove
    · rw [hsame, old]
    · rw [old] at hmove
      generalize T.exec.workers v = pc at hmove
      cases hmove with
      | line hact hline => exact absurd hline nofun
  | @throws w x act stopped hw workers =>
    have hvw : v ≠ w := by
      rintro rfl
      exact absurd (old.symm.trans hw) nofun
    rw [workers, Function.update_of_ne hvw, old]
  | @abandons w x hw workers =>
    have hvw : v ≠ w := by
      rintro rfl
      exact absurd (old.symm.trans hw) nofun
    rw [workers, Function.update_of_ne hvw, old]

/-- **Contained.** In a run of the system no exception has left `worker_loop` exactly if at every
step a worker resubmitted only to a running pool and called `set_exception` only on a promise not
yet satisfied. -/
theorem exceptions_contained_iff {es : List (Event m n k)} {S : System m n k}
    (run : Run step free (start m n k) es S) :
    S.Contained ↔ Run step Handled (start m n k) es S := by
  constructor
  · intro hS
    induction run with
    | nil => exact .nil
    | @snoc as S T e run meets next ih =>
      refine .snoc (ih (contained_of_step next hS)) ?_ next
      -- An exception let out by this step would still be out.
      by_contra hnot
      exact escapes_of_not_handled hnot next hS
  · intro hrun
    have hpreserved : Preserved (step (m := m) (n := n) (k := k)) Handled Contained :=
      fun _ _ _ h hok hstep => contained_step hok hstep h
    exact hrun.invariant hpreserved fun w u => nofun

end System

/-! ### Schedules of a system with one client, one worker and one caller of `stop` -/

namespace Schedule

def acts (as : List (Action 1 1)) : List (Event 1 1 1) := as.map .act

/-- A task is submitted and taken; its function throws, and the failure hook comes to resubmitting
it. -/
def retrying : List (Event 1 1 1) :=
  acts (.call 0 (.submit { maxRetries := 1 }) :: client 8) ++
  .testRunning (.client 0) :: acts (client 1) ++
  .workerLoop 0 :: acts (.take 0 1 :: worker 6 ++ .worker 0 0 false :: worker 8)

/-- `stop`, up to the store of `running_`. -/
def stop : List (Event 1 1 1) := [.callStop 0, .stop 0, .schedulerLoop, .stop 0, .stop 0]

/-- The worker resubmits the task before `running_` is cleared, and leaves its loop. -/
def stopAfter : List (Event 1 1 1) :=
  retrying ++ .testRunning (.worker 0) :: stop ++ acts (worker 1) ++ [.workerLoop 0, .stop 0]

/-- `running_` is cleared when the worker comes to resubmitting the task. -/
def stopBefore : List (Event 1 1 1) := retrying ++ stop ++ [.testRunning (.worker 0)]

end Schedule

def stoppedAfter : System 1 1 1 :=
  (exec System.step System.Handled (System.start 1 1 1) Schedule.stopAfter).get (by decide +kernel)

theorem exceptions_contained_stoppedAfter : stoppedAfter.Contained := by
  have hrun : Run System.step System.Handled (System.start 1 1 1) Schedule.stopAfter stoppedAfter :=
    .of_isSome _
  exact (System.exceptions_contained_iff hrun.toFree).mpr hrun

def stoppedBefore : System 1 1 1 :=
  (exec System.step free (System.start 1 1 1) Schedule.stopBefore).get (by decide +kernel)

theorem exception_escapes : ¬ ∀ (es : List (Event 1 1 1)) (S : System 1 1 1),
    Run System.step free (System.start 1 1 1) es S → S.Contained := by
  intro hall
  exact absurd (hall Schedule.stopBefore stoppedBefore (.of_isSome _) 0 1) (by decide +kernel)

end Executor
end NexusTask
