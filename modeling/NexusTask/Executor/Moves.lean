import NexusTask.Executor.Steps

/-!
# What a step of the executor can do

A worker at a line works on one task, and most lines touch only that task: `LineStep` lists them as
a relation between the line and the task before and after. `ClientStep` lists the client steps that
touch no task. `Move` adds the steps that concern several threads: creating a task and its edges,
the three compare-exchanges on `enqueued_`, the pool, the notifications and the stores of `cancel`.
`Move.of_step` is the one place where `step` is unfolded.
-/

set_option autoImplicit false

namespace NexusTask
namespace Executor

open Transition

variable {m n : Nat}

/-! ## Places -/

namespace Line

/-- The task's `enqueued_` is set on behalf of the worker. Between `clear_enqueued_flag` and
`try_mark_enqueued` of a retry it is not. -/
def holds (line : Line) : Bool := line != .remark

end Line

namespace WorkerPc

/-- The task a worker works on. -/
@[simp] def hand : WorkerPc → List TaskId
  | .busy _ t => [t]
  | .idle => []

/-- The task whose `enqueued_` is set on behalf of the worker. -/
@[simp] def held : WorkerPc → List TaskId
  | .busy line t => if line.holds then [t] else []
  | .idle => []

/-- The task whose `enqueued_` the next step of a retry tests and sets. -/
@[simp] def markTarget : WorkerPc → List TaskId
  | .busy .remark t => [t]
  | _ => []

end WorkerPc

namespace ClientPc

/-- The task a submission has marked and not yet given to the pool. -/
@[simp] def marked : ClientPc → List TaskId
  | .enqueue t => [t]
  | _ => []

/-- The task being submitted, once it has an id. -/
@[simp] def submitting : ClientPc → List TaskId
  | .record t _ | .register t _ | .add t _ | .edges t _ | .readyStatus t | .readyCount t _
  | .readyEnqueued t | .mark t | .enqueue t => [t]
  | _ => []

/-- The dependencies a submission of `t` has still to add. -/
@[simp] def unadded (t : TaskId) : ClientPc → List TaskId
  | .record u deps | .register u deps | .add u deps | .edges u deps => if u = t then deps else []
  | _ => []

/-- The task a submission has seen with its counter at 0. -/
@[simp] def sawReady : ClientPc → List TaskId
  | .readyEnqueued t | .mark t => [t]
  | _ => []

/-- The task a `cancel` has taken effect on and not yet notified the dependents of. -/
@[simp] def cancelling : ClientPc → List TaskId
  | .cancelStatus t | .cancelPromise t | .cancelException t | .cancelRecord t | .cancelNotify t =>
    [t]
  | _ => []

/-- The task a `cancel` has taken effect on. -/
@[simp] def cancelled : ClientPc → List TaskId
  | .cancelClear t => [t]
  | pc => pc.cancelling

/-- The task whose `cancelled_` the next step of a `cancel` tests and sets. -/
@[simp] def cancelTarget : ClientPc → List TaskId
  | .cancelFlag t => [t]
  | _ => []

/-- The task whose `enqueued_` the next step of a submission tests and sets. -/
@[simp] def markTarget : ClientPc → List TaskId
  | .mark t => [t]
  | _ => []

/-- The dependency the next step of a submission adds. -/
@[simp] def addTarget : ClientPc → List TaskId
  | .edges _ (d :: _) => [d]
  | _ => []

theorem cancelled_of_cancelling {pc : ClientPc} {t : TaskId} (h : t ∈ pc.cancelling) :
    t ∈ pc.cancelled := by
  cases pc <;> simp_all

end ClientPc

namespace Call

variable (op : Call)

/-! A call begins without a task of its own; what `cancel` is called for it has to look up. -/

theorem entry_marked : op.entry.marked = [] := by cases op <;> rfl
theorem entry_submitting : op.entry.submitting = [] := by cases op <;> rfl
theorem entry_unadded (t : TaskId) : op.entry.unadded t = [] := by cases op <;> rfl
theorem entry_sawReady : op.entry.sawReady = [] := by cases op <;> rfl
theorem entry_cancelling : op.entry.cancelling = [] := by cases op <;> rfl
theorem entry_cancelled : op.entry.cancelled = [] := by cases op <;> rfl

end Call

namespace SchedulerPc

@[simp] def marked : SchedulerPc → List TaskId
  | .submitting t _ => [t]
  | _ => []

@[simp] def markTarget : SchedulerPc → List TaskId
  | .marking (t :: _) => [t]
  | _ => []

/-- What is left of the last poll. -/
@[simp] def polled : SchedulerPc → List TaskId
  | .idle => []
  | .marking rest | .submitting _ rest => rest

end SchedulerPc

namespace State

/-- The step of the given line lets an exception out of `on_success`. -/
def raises (s : State m n) (t : TaskId) (ok : Bool) : Line → Bool
  | .callback => !ok
  | .setCallbackValue | .setValue => s.satisfied t
  | _ => false

/-- The task whose `enqueued_` a step tests and sets. -/
def markTarget (s : State m n) : Action m n → List TaskId
  | .client c _ => (s.clients c).markTarget
  | .scheduler => s.scheduler.markTarget
  | .worker w _ _ => (s.workers w).markTarget
  | _ => []

/-- The dependency a step adds. -/
def addTarget (s : State m n) : Action m n → List TaskId
  | .client c _ => (s.clients c).addTarget
  | _ => []

/-- The task whose `cancelled_` a step tests and sets. -/
def cancelTarget (s : State m n) : Action m n → List TaskId
  | .client c _ => (s.clients c).cancelTarget
  | _ => []

end State

/-! ## Steps on one task -/

/-- The promises after the given line with task `t`. -/
def Line.promises (s : State m n) (t : TaskId) : Line → Promises
  | .setCallbackValue | .setValue => (s.setPromise t .value).promises
  | .setException => (s.setPromise t .exception).promises
  | .fulfillPromise | .failPromise => (s.takePromise t).promises
  | _ => s.promises

/-- The monitor after the given line of worker `w` with task `t`. -/
def Line.recorder (s : State m n) (w : Fin n) (t : TaskId) (now : Int) : Line → Recorder n
  | .onStart => s.recorder.start w (s.graph.task t).createdTime now
  | .onSuccess => s.recorder.completion w (s.graph.task t).executionTime
  | .onFailure => s.recorder.failure w
  | .recordRetry => { s.recorder with metrics := s.recorder.metrics.recordRetry }
  | _ => s.recorder

/-- The lines that touch their own task only, with that task after them. -/
inductive LineStep (s : State m n) (t : TaskId) (now : Int) (ok : Bool) :
    Line → Line → Task → Prop
  | start : LineStep s t now ok .onStart .loadCancelled (s.graph.task t)
  | cancelled (h : (s.graph.task t).cancelled = true) :
      LineStep s t now ok .loadCancelled .storeCancelled (s.graph.task t)
  | uncancelled (h : (s.graph.task t).cancelled = false) :
      LineStep s t now ok .loadCancelled .storeRunning (s.graph.task t)
  | storeCancelled : LineStep s t now ok .storeCancelled .onFailure
      { s.graph.task t with status := .cancelled }
  | storeRunning : LineStep s t now ok .storeRunning .countAttempt
      { s.graph.task t with status := .running }
  | countAttempt : LineStep s t now ok .countAttempt .testDeadline
      { s.graph.task t with startTime := some now, attempts := (s.graph.task t).attempts + 1 }
  | late : LineStep s t now ok .testDeadline .storeFailed (s.graph.task t)
  | inTime : LineStep s t now ok .testDeadline .callFunction (s.graph.task t)
  | call : LineStep s t now ok .callFunction .inFunction (s.graph.task t)
  | returned (h : (s.graph.task t).overran now = false) :
      LineStep s t now ok .inFunction .storeCompleted { s.graph.task t with endTime := some now }
  | overran (hok : ok = true) (h : (s.graph.task t).overran now = true) :
      LineStep s t now ok .inFunction .storeFailed { s.graph.task t with endTime := some now }
  | thrown : LineStep s t now ok .inFunction .catchAll (s.graph.task t)
  | storeFailed : LineStep s t now ok .storeFailed .catchAll
      { s.graph.task t with status := .failed }
  | catchAll : LineStep s t now ok .catchAll .onFailure
      { s.graph.task t with status := .failed, endTime := some now }
  | storeCompleted : LineStep s t now ok .storeCompleted .onSuccess
      { s.graph.task t with status := .completed }
  | completion : LineStep s t now ok .onSuccess .callback (s.graph.task t)
  | wrapped (h : (s.graph.task t).wrapsPromise = true) :
      LineStep s t now ok .callback .setCallbackValue (s.graph.task t)
  | plain (h : (s.graph.task t).wrapsPromise = false) :
      LineStep s t now ok .callback .fulfillPromise (s.graph.task t)
  | callbackRaised (h : ok = false) : LineStep s t now ok .callback .onFailure (s.graph.task t)
  | callbackValue : LineStep s t now ok .setCallbackValue .fulfillPromise (s.graph.task t)
  | callbackValueRaised (h : s.satisfied t = true) :
      LineStep s t now ok .setCallbackValue .onFailure (s.graph.task t)
  | registered (h : t ∈ s.promises.table) :
      LineStep s t now ok .fulfillPromise .setValue (s.graph.task t)
  | unregistered (h : t ∉ s.promises.table) :
      LineStep s t now ok .fulfillPromise .notify (s.graph.task t)
  | value : LineStep s t now ok .setValue .notify (s.graph.task t)
  | valueRaised (h : s.satisfied t = true) :
      LineStep s t now ok .setValue .onFailure (s.graph.task t)
  | failure : LineStep s t now ok .onFailure .testCancelled (s.graph.task t)
  | noRetryCancelled (h : (s.graph.task t).cancelled = true) :
      LineStep s t now ok .testCancelled .failPromise (s.graph.task t)
  | retryUncancelled (h : (s.graph.task t).cancelled = false) :
      LineStep s t now ok .testCancelled .testRetries (s.graph.task t)
  | retry (h : (s.graph.task t).retriesLeft = true) :
      LineStep s t now ok .testRetries .recordRetry (s.graph.task t)
  | noRetry (h : (s.graph.task t).retriesLeft = false) :
      LineStep s t now ok .testRetries .failPromise (s.graph.task t)
  | recordRetry : LineStep s t now ok .recordRetry .resetStatus (s.graph.task t)
  | resetStatus : LineStep s t now ok .resetStatus .resetFlag
      { s.graph.task t with status := .pending, startTime := none, endTime := none }
  | failRegistered (h : t ∈ s.promises.table) :
      LineStep s t now ok .failPromise .setException (s.graph.task t)
  | failUnregistered (h : t ∉ s.promises.table) :
      LineStep s t now ok .failPromise .notify (s.graph.task t)
  | exception : LineStep s t now ok .setException .notify (s.graph.task t)
  | exceptionRaised (h : s.satisfied t = true) :
      LineStep s t now ok .setException .terminated (s.graph.task t)

/-- The promises after a step of a client that touches no task. -/
def ClientPc.promises (s : State m n) : ClientPc → Promises
  | .register t _ => (s.registerPromise t).promises
  | .cancelPromise t => (s.takePromise t).promises
  | .cancelException t => (s.setPromise t .exception).promises
  | _ => s.promises

/-- The monitor after a step of a client that touches no task. -/
def ClientPc.recorder (s : State m n) : ClientPc → Recorder n
  | .record _ _ => { s.recorder with metrics := s.recorder.metrics.recordSubmission }
  | .cancelRecord _ => { s.recorder with metrics := s.recorder.metrics.recordCancellation }
  | _ => s.recorder

/-- The client steps that touch no task. -/
inductive ClientStep (s : State m n) : ClientPc → ClientPc → Prop
  | recordAsync {t deps} (h : (s.graph.task t).wrapsPromise = true) :
      ClientStep s (.record t deps) (.register t deps)
  | record {t deps} (h : (s.graph.task t).wrapsPromise = false) :
      ClientStep s (.record t deps) (.add t deps)
  | register {t deps} : ClientStep s (.register t deps) (.add t deps)
  | added {t} : ClientStep s (.edges t []) (.readyStatus t)
  | status {t status} : ClientStep s (.readyStatus t) (.readyCount t status)
  | count {t status} (h : (s.graph.task t).dependenciesCount = 0) :
      ClientStep s (.readyCount t status) (.readyEnqueued t)
  | notReady {t status} : ClientStep s (.readyCount t status) .idle
  | notEnqueued {t} : ClientStep s (.readyEnqueued t) (.mark t)
  | enqueued {t} : ClientStep s (.readyEnqueued t) .idle
  | lost {t} : ClientStep s (.mark t) .idle
  | found {t} (h : t ∈ s.graph.ids) : ClientStep s (.cancelGet t) (.cancelFlag t)
  | notFound {t} : ClientStep s (.cancelGet t) .idle
  | wasCancelled {t} : ClientStep s (.cancelFlag t) .idle
  | cancelRegistered {t} (h : t ∈ s.promises.table) :
      ClientStep s (.cancelPromise t) (.cancelException t)
  | cancelUnregistered {t} (h : t ∉ s.promises.table) :
      ClientStep s (.cancelPromise t) (.cancelRecord t)
  | cancelException {t} : ClientStep s (.cancelException t) (.cancelRecord t)
  | cancelRaised {t} (h : s.satisfied t = true) : ClientStep s (.cancelException t) .idle
  | cancelRecord {t} : ClientStep s (.cancelRecord t) (.cancelNotify t)
  | wait : ClientStep s .waiting .waiting
  | waited (h : s.graph.allCompleted = true) : ClientStep s .waiting .idle

/-- A line touches the status, the attempts and the two times of its task. -/
theorem LineStep.frame {β : Type} {s : State m n} {t : TaskId} {now : Int} {ok : Bool} {k : Task}
    {line line' : Line} (h : LineStep s t now ok line line' k) (p : Task → β)
    (hp : ∀ k status attempts startTime endTime,
      p { k with status := status, attempts := attempts, startTime := startTime,
                 endTime := endTime } = p k) : p k = p (s.graph.task t) := by
  cases h <;> first | rfl | exact hp _ _ _ _ _

namespace State

variable {s : State m n} {t d u : TaskId} {f : Task → Task} {c : Fin m} {w : Fin n} {line : Line}

@[simp] theorem setClient_graph {pc : ClientPc} : (s.setClient c pc).graph = s.graph := rfl
@[simp] theorem setScheduler_graph {pc : SchedulerPc} : (s.setScheduler pc).graph = s.graph := rfl
@[simp] theorem setWorker_graph {pc : WorkerPc} : (s.setWorker w pc).graph = s.graph := rfl
@[simp] theorem goto_graph : (s.goto w t line).graph = s.graph := rfl
@[simp] theorem finish_graph : (s.finish w).graph = s.graph := rfl
@[simp] theorem enqueue_graph : (s.enqueue t).graph = s.graph := rfl
@[simp] theorem setPromises_graph {p : Promises} : (s.setPromises p).graph = s.graph := rfl
@[simp] theorem setRecorder_graph {r : Recorder n} : (s.setRecorder r).graph = s.graph := rfl
@[simp] theorem modify_graph : (s.modify t f).graph = s.graph.modify t f := rfl
@[simp] theorem newTask_graph {deps : List TaskId} {options : TaskOptions} {async : Bool}
    {now : Int} :
    (s.newTask deps options async now).graph = s.graph.modify s.nextTaskId fun _ =>
      { id := s.nextTaskId, options, createdTime := now, wrapsPromise := async } := rfl
@[simp] theorem notify_graph : (s.notify t).graph = s.graph.notifyTaskCompleted t := rfl
@[simp] theorem addTask_graph : (s.addTask t).graph = s.graph.addTask t := rfl
@[simp] theorem addDependency_graph : (s.addDependency t d).graph = s.graph.addDependency t d := rfl

@[simp] theorem modify_self : (s.modify t f).graph.task t = f (s.graph.task t) :=
  DependencyGraph.modify_self

theorem modify_of_ne (h : u ≠ t) : (s.modify t f).graph.task u = s.graph.task u :=
  DependencyGraph.modify_of_ne h

/-- A field that `f` leaves alone is left alone at every task. -/
theorem modify_frame {β : Type} (p : Task → β) (hf : p (f (s.graph.task t)) = p (s.graph.task t)) :
    p ((s.modify t f).graph.task u) = p (s.graph.task u) := DependencyGraph.modify_frame p hf

@[simp] theorem notify_ids : (s.notify d).graph.ids = s.graph.ids :=
  DependencyGraph.notifyTaskCompleted_ids

theorem notify_frame {β : Type} (p : Task → β)
    (hp : ∀ k count status, p { k with dependenciesCount := count, status := status } = p k) :
    p ((s.notify d).graph.task u) = p (s.graph.task u) :=
  DependencyGraph.notifyTaskCompleted_frame p hp

@[simp] theorem addDependency_ids : (s.addDependency t d).graph.ids = s.graph.ids :=
  DependencyGraph.addDependency_ids

theorem addDependency_frame {β : Type} (p : Task → β)
    (hp : ∀ k dependencies dependents count, p { k with
      dependencies := dependencies, dependents := dependents, dependenciesCount := count } = p k) :
    p ((s.addDependency t d).graph.task u) = p (s.graph.task u) :=
  DependencyGraph.addDependency_frame p hp

end State

/-! ## The moves -/

inductive Move (s : State m n) : Action m n → State m n → Prop
  | call {c op} (old : s.clients c = .idle) : Move s (.call c op) (s.setClient c op.entry)
  | client {c now pc} (h : ClientStep s (s.clients c) pc) :
      Move s (.client c now) (((s.setPromises ((s.clients c).promises s)).setRecorder
        ((s.clients c).recorder s)).setClient c pc)
  | newTask {c deps options async} (now : Int)
      (old : s.clients c = .newTask deps options async) :
      Move s (.client c now)
        ((s.newTask deps options async now).setClient c (.record s.nextTaskId deps))
  | addTask {c now t deps} (old : s.clients c = .add t deps) :
      Move s (.client c now) ((s.addTask t).setClient c (.edges t deps))
  | addDependency {c now t d rest} (old : s.clients c = .edges t (d :: rest)) :
      Move s (.client c now) ((s.addDependency t d).setClient c (.edges t rest))
  | clientMarks {c now t} (old : s.clients c = .mark t) (free : (s.graph.task t).enqueued = false) :
      Move s (.client c now)
        ((s.modify t fun k => { k with enqueued := true }).setClient c (.enqueue t))
  | clientEnqueues {c now t} (old : s.clients c = .enqueue t) :
      Move s (.client c now) ((s.enqueue t).setClient c .idle)
  | cancelFlag {c now t} (old : s.clients c = .cancelFlag t)
      (fresh : (s.graph.task t).cancelled = false) :
      Move s (.client c now)
        ((s.modify t fun k => { k with cancelled := true }).setClient c (.cancelStatus t))
  | cancelStatus {c now t} (old : s.clients c = .cancelStatus t) :
      Move s (.client c now)
        ((s.modify t fun k => { k with status := .cancelled }).setClient c (.cancelPromise t))
  | cancelNotify {c now t} (old : s.clients c = .cancelNotify t) :
      Move s (.client c now) ((s.notify t).setClient c (.cancelClear t))
  | cancelClear {c now t} (old : s.clients c = .cancelClear t) :
      Move s (.client c now) ((s.modify t Task.clearEnqueuedFlag).setClient c .idle)
  | polls {order} (old : s.scheduler = .idle) (perm : order.Perm s.graph.getReadyTasks) :
      Move s (.poll order) (s.setScheduler (.marking order))
  | schedulerRests (old : s.scheduler = .marking []) : Move s .scheduler (s.setScheduler .idle)
  | schedulerLoses {t rest} (old : s.scheduler = .marking (t :: rest)) :
      Move s .scheduler (s.setScheduler (.marking rest))
  | schedulerMarks {t rest} (old : s.scheduler = .marking (t :: rest))
      (free : (s.graph.task t).enqueued = false) :
      Move s .scheduler
        ((s.modify t fun k => { k with enqueued := true }).setScheduler (.submitting t rest))
  | schedulerEnqueues {t rest} (old : s.scheduler = .submitting t rest) :
      Move s .scheduler ((s.enqueue t).setScheduler (.marking rest))
  | takes {w t} (old : s.workers w = .idle) (mem : t ∈ s.queued) :
      Move s (.take w t) ({ s with queued := s.queued.erase t }.goto w t .onStart)
  | line {w now ok t line line' k} (old : s.workers w = .busy line t)
      (h : LineStep s t now ok line line' k) :
      Move s (.worker w now ok)
        (({ s with
            promises := line.promises s t, recorder := line.recorder s w t now,
            started := if line = Line.callFunction then s.started ++ [t] else s.started,
            returned := if line = Line.inFunction ∧ line' ≠ Line.catchAll then s.returned ++ [t]
              else s.returned }.modify t fun _ => k).goto w t line')
  | workerNotifies {w now ok t} (old : s.workers w = .busy .notify t) :
      Move s (.worker w now ok) ((s.notify t).goto w t .clear)
  | clears {w now ok t} (old : s.workers w = .busy .clear t) :
      Move s (.worker w now ok) ((s.modify t Task.clearEnqueuedFlag).finish w)
  | resetsFlag {w now ok t} (old : s.workers w = .busy .resetFlag t) :
      Move s (.worker w now ok) ((s.modify t Task.clearEnqueuedFlag).goto w t .remark)
  | remarks {w now ok t} (old : s.workers w = .busy .remark t)
      (free : (s.graph.task t).enqueued = false) :
      Move s (.worker w now ok)
        ((s.modify t fun k => { k with enqueued := true }).goto w t .resubmit)
  | remarkLoses {w now ok t} (old : s.workers w = .busy .remark t) :
      Move s (.worker w now ok) (s.finish w)
  | resubmits {w now ok t} (old : s.workers w = .busy .resubmit t) :
      Move s (.worker w now ok) ((s.enqueue t).finish w)

namespace Move

variable {s t : State m n} {a : Action m n} {c : Fin m} {w : Fin n} {u : TaskId} {now : Int}
  {ok : Bool}

theorem modify_const : s.modify u (fun _ => s.graph.task u) = s := by
  unfold State.modify DependencyGraph.modify
  rw [Function.update_eq_self]

theorem modify_history (l : List TaskId) :
    ({ s with started := l }.modify u fun _ => s.graph.task u) = { s with started := l } :=
  modify_const (s := { s with started := l }) (u := u)

/-- A line that leaves its task as it is. -/
theorem unchanged {line line' : Line} (old : s.workers w = .busy line u)
    (h : LineStep s u now ok line line' (s.graph.task u)) (hcall : line ≠ .callFunction)
    (hreturn : line ≠ .inFunction ∨ line' = .catchAll) :
    Move s (.worker w now ok) (((s.setPromises (line.promises s u)).setRecorder
      (line.recorder s w u now)).goto w u line') := by
  have hm : Move s (.worker w now ok) _ := .line old h
  have hkeep : ¬ (line = .inFunction ∧ line' ≠ .catchAll) := by
    rintro ⟨hin, hne⟩
    exact hreturn.elim (absurd hin) hne
  rw [if_neg hcall, if_neg hkeep] at hm
  have hs : (((s.setPromises (line.promises s u)).setRecorder (line.recorder s w u now)).modify u
      fun _ => s.graph.task u) = (s.setPromises (line.promises s u)).setRecorder
        (line.recorder s w u now) := modify_const (s := (s.setPromises _).setRecorder _)
  rw [← hs]
  exact hm

/-- A line that changes its task and nothing else. -/
theorem changed {line line' : Line} {k : Task} (old : s.workers w = .busy line u)
    (h : LineStep s u now ok line line' k) (hcall : line ≠ .callFunction)
    (hreturn : line ≠ .inFunction) (hpromises : line.promises s u = s.promises)
    (hrecorder : line.recorder s w u now = s.recorder) :
    Move s (.worker w now ok) ((s.modify u fun _ => k).goto w u line') := by
  have hm : Move s (.worker w now ok) _ := .line old h
  rw [if_neg hcall, if_neg fun hin => hreturn hin.1, hpromises, hrecorder] at hm
  exact hm

theorem takePromise_of_notMem (h : u ∉ s.promises.table) : s.takePromise u = s := by
  unfold State.takePromise
  rw [List.erase_of_not_mem h]
  rfl

theorem of_lineStep {line : Line} (old : s.workers w = .busy line u)
    (h : lineStep s w u now ok line = some t) : Move s (.worker w now ok) t := by
  cases line with
  | onStart =>
    obtain rfl := Option.some.inj h
    exact .unchanged old .start (by simp) (by simp)
  | loadCancelled =>
    obtain rfl := Option.some.inj h
    split
    next hc => exact .unchanged old (.cancelled hc) (by simp) (by simp)
    next hc =>
      rw [Bool.not_eq_true] at hc
      exact .unchanged old (.uncancelled hc) (by simp) (by simp)
  | storeCancelled =>
    obtain rfl := Option.some.inj h
    exact .changed old .storeCancelled (by simp) (by simp) rfl rfl
  | storeRunning =>
    obtain rfl := Option.some.inj h
    exact .changed old .storeRunning (by simp) (by simp) rfl rfl
  | countAttempt =>
    obtain rfl := Option.some.inj h
    exact .changed old .countAttempt (by simp) (by simp) rfl rfl
  | testDeadline =>
    obtain rfl := Option.some.inj h
    split
    · exact .unchanged old .late (by simp) (by simp)
    · exact .unchanged old .inTime (by simp) (by simp)
  | callFunction =>
    -- The task stays as it is, but the call goes into the history.
    obtain rfl := Option.some.inj h
    have hm : Move s (.worker w now ok) _ := .line old .call
    rw [if_pos rfl, if_neg (by simp)] at hm
    change Move s _ (({ s with started := s.started ++ [u] }.modify u fun _ =>
      s.graph.task u).goto w u .inFunction) at hm
    rwa [modify_history] at hm
  | inFunction =>
    simp only [lineStep] at h
    cases ok with
    | false =>
      obtain rfl := Option.some.inj h
      exact .unchanged old .thrown (by simp) (by simp)
    | true =>
      obtain rfl := Option.some.inj h
      split
      next hover =>
        have hm : Move s (.worker w now true) _ :=
          .line old (.overran rfl hover)
        rwa [if_neg (by simp), if_pos (by simp)] at hm
      next hover =>
        rw [Bool.not_eq_true] at hover
        have hm : Move s (.worker w now true) _ :=
          .line old (.returned hover)
        rwa [if_neg (by simp), if_pos (by simp)] at hm
  | storeFailed =>
    obtain rfl := Option.some.inj h
    exact .changed old .storeFailed (by simp) (by simp) rfl rfl
  | catchAll =>
    obtain rfl := Option.some.inj h
    exact .changed old .catchAll (by simp) (by simp) rfl rfl
  | storeCompleted =>
    obtain rfl := Option.some.inj h
    exact .changed old .storeCompleted (by simp) (by simp) rfl rfl
  | onSuccess =>
    obtain rfl := Option.some.inj h
    exact .unchanged old .completion (by simp) (by simp)
  | callback =>
    simp only [lineStep] at h
    cases ok with
    | false =>
      obtain rfl := Option.some.inj h
      exact .unchanged old (.callbackRaised rfl) (by simp) (by simp)
    | true =>
      obtain rfl := Option.some.inj h
      split
      next hw => exact .unchanged old (.wrapped hw) (by simp) (by simp)
      next hw =>
        rw [Bool.not_eq_true] at hw
        exact .unchanged old (.plain hw) (by simp) (by simp)
  | setCallbackValue =>
    obtain rfl := Option.some.inj h
    split
    next hs => exact .unchanged old (.callbackValueRaised hs) (by simp) (by simp)
    next hs => exact .unchanged old .callbackValue (by simp) (by simp)
  | fulfillPromise =>
    simp only [lineStep] at h
    split at h
    next hmem =>
      obtain rfl := Option.some.inj h
      exact .unchanged old (.registered hmem) (by simp) (by simp)
    next hmem =>
      -- Taking a promise that is not there changes nothing.
      obtain rfl := Option.some.inj h
      have hm : Move s (.worker w now ok) _ :=
        .unchanged old (.unregistered hmem) (by simp) (by simp)
      change Move s _ ((s.takePromise u).goto w u .notify) at hm
      rwa [takePromise_of_notMem hmem] at hm
  | setValue =>
    obtain rfl := Option.some.inj h
    split
    next hs => exact .unchanged old (.valueRaised hs) (by simp) (by simp)
    next => exact .unchanged old .value (by simp) (by simp)
  | notify =>
    obtain rfl := Option.some.inj h
    exact .workerNotifies old
  | clear =>
    obtain rfl := Option.some.inj h
    exact .clears old
  | onFailure =>
    obtain rfl := Option.some.inj h
    exact .unchanged old .failure (by simp) (by simp)
  | testCancelled =>
    obtain rfl := Option.some.inj h
    split
    next hc =>
      exact .unchanged old (.noRetryCancelled hc) (by simp) (by simp)
    next hc =>
      rw [Bool.not_eq_true] at hc
      exact .unchanged old (.retryUncancelled hc) (by simp) (by simp)
  | testRetries =>
    obtain rfl := Option.some.inj h
    split
    next hr => exact .unchanged old (.retry hr) (by simp) (by simp)
    next hr =>
      rw [Bool.not_eq_true] at hr
      exact .unchanged old (.noRetry hr) (by simp) (by simp)
  | recordRetry =>
    obtain rfl := Option.some.inj h
    exact .unchanged old .recordRetry (by simp) (by simp)
  | resetStatus =>
    obtain rfl := Option.some.inj h
    exact .changed old .resetStatus (by simp) (by simp) rfl rfl
  | resetFlag =>
    obtain rfl := Option.some.inj h
    exact .resetsFlag old
  | remark =>
    simp only [lineStep, Task.tryMarkEnqueued_fst, Task.tryMarkEnqueued_snd] at h
    split at h
    next hfree =>
      obtain rfl := Option.some.inj h
      exact .remarks old (by simpa using hfree)
    next =>
      obtain rfl := Option.some.inj h
      exact .remarkLoses old
  | resubmit =>
    obtain rfl := Option.some.inj h
    exact .resubmits old
  | failPromise =>
    simp only [lineStep] at h
    split at h
    next hmem =>
      obtain rfl := Option.some.inj h
      exact .unchanged old (.failRegistered hmem) (by simp) (by simp)
    next hmem =>
      obtain rfl := Option.some.inj h
      have hm : Move s (.worker w now ok) _ :=
        .unchanged old (.failUnregistered hmem) (by simp) (by simp)
      change Move s _ ((s.takePromise u).goto w u .notify) at hm
      rwa [takePromise_of_notMem hmem] at hm
  | setException =>
    obtain rfl := Option.some.inj h
    split
    next hs => exact .unchanged old (.exceptionRaised hs) (by simp) (by simp)
    next => exact .unchanged old .exception (by simp) (by simp)
  | terminated => exact absurd h (by simp [lineStep])

theorem of_clientStep (h : clientStep s c now = some t) : Move s (.client c now) t := by
  have hstep : ∀ {old pc : ClientPc}, s.clients c = old → ClientStep s old pc →
      Move s (.client c now)
        (((s.setPromises (old.promises s)).setRecorder (old.recorder s)).setClient c pc) := by
    intro old pc hold hs
    subst hold
    exact .client hs
  unfold clientStep at h
  split at h
  next => exact absurd h (by simp)
  next hpc => obtain rfl := Option.some.inj h; exact .newTask now hpc
  next hpc =>
    obtain rfl := Option.some.inj h
    split
    next hw => exact hstep hpc (.recordAsync hw)
    next hw => exact hstep hpc (.record (Bool.eq_false_iff.mpr hw))
  next hpc =>
    obtain rfl := Option.some.inj h
    exact hstep hpc .register
  next hpc => obtain rfl := Option.some.inj h; exact .addTask hpc
  next hpc => obtain rfl := Option.some.inj h; exact .addDependency hpc
  next hpc => obtain rfl := Option.some.inj h; exact hstep hpc .added
  next hpc => obtain rfl := Option.some.inj h; exact hstep hpc .status
  next hpc =>
    obtain rfl := Option.some.inj h
    split
    next hcount =>
      rw [Bool.and_eq_true, beq_iff_eq] at hcount
      exact hstep hpc (.count hcount.1)
    next => exact hstep hpc .notReady
  next hpc =>
    obtain rfl := Option.some.inj h
    split
    · exact hstep hpc .enqueued
    · exact hstep hpc .notEnqueued
  next hpc =>
    simp only [Task.tryMarkEnqueued_fst, Task.tryMarkEnqueued_snd] at h
    split at h
    next hfree =>
      obtain rfl := Option.some.inj h
      exact .clientMarks hpc (by simpa using hfree)
    next => obtain rfl := Option.some.inj h; exact hstep hpc .lost
  next hpc => obtain rfl := Option.some.inj h; exact .clientEnqueues hpc
  next hpc =>
    obtain rfl := Option.some.inj h
    split
    next hmem => exact hstep hpc (.found hmem)
    next => exact hstep hpc .notFound
  next hpc =>
    split at h
    next => obtain rfl := Option.some.inj h; exact hstep hpc .wasCancelled
    next hc =>
      obtain rfl := Option.some.inj h
      exact .cancelFlag hpc (Bool.eq_false_iff.mpr hc)
  next hpc => obtain rfl := Option.some.inj h; exact .cancelStatus hpc
  next hpc =>
    split at h
    next hmem =>
      obtain rfl := Option.some.inj h
      exact hstep hpc (.cancelRegistered hmem)
    next u hmem =>
      obtain rfl := Option.some.inj h
      have hm := hstep hpc (.cancelUnregistered hmem)
      change Move s _ ((s.takePromise _).setClient c _) at hm
      rwa [takePromise_of_notMem hmem] at hm
  next hpc =>
    obtain rfl := Option.some.inj h
    split
    next hs => exact hstep hpc (.cancelRaised hs)
    next => exact hstep hpc .cancelException
  next hpc => obtain rfl := Option.some.inj h; exact hstep hpc .cancelRecord
  next hpc => obtain rfl := Option.some.inj h; exact .cancelNotify hpc
  next hpc => obtain rfl := Option.some.inj h; exact .cancelClear hpc
  next hpc =>
    obtain rfl := Option.some.inj h
    split
    next hall => exact hstep hpc (.waited hall)
    next => exact hstep hpc .wait

theorem of_schedulerStep (h : schedulerStep s = some t) : Move s .scheduler t := by
  unfold schedulerStep at h
  split at h
  next => exact absurd h (by simp)
  next hpc => obtain rfl := Option.some.inj h; exact .schedulerRests hpc
  next hpc =>
    simp only [Task.tryMarkEnqueued_fst, Task.tryMarkEnqueued_snd] at h
    split at h
    next hfree =>
      obtain rfl := Option.some.inj h
      exact .schedulerMarks hpc (by simpa using hfree)
    next => obtain rfl := Option.some.inj h; exact .schedulerLoses hpc
  next hpc => obtain rfl := Option.some.inj h; exact .schedulerEnqueues hpc

/-- Every step is one of the moves. -/
theorem of_step (h : step s a = some t) : Move s a t := by
  cases a with
  | call c op =>
    simp only [step] at h
    split at h
    next hpc =>
      obtain rfl := Option.some.inj h
      exact .call hpc
    next => exact absurd h (by simp)
  | client c now => exact .of_clientStep h
  | poll order =>
    simp only [step] at h
    split at h
    next hpoll => obtain rfl := Option.some.inj h; exact .polls hpoll.1 hpoll.2
    next => exact absurd h (by simp)
  | scheduler => exact .of_schedulerStep h
  | take w u =>
    simp only [step] at h
    split at h
    next htake => obtain rfl := Option.some.inj h; exact .takes htake.1 htake.2
    next => exact absurd h (by simp)
  | worker w now ok =>
    simp only [step] at h
    split at h
    next => exact absurd h (by simp)
    next hpc => exact .of_lineStep hpc h

end Move

/-! ## The moves seen from one thread -/

/-- What a step does to the client that takes it. -/
inductive ClientMove (s : State m n) (a : Action m n) (t : State m n) : ClientPc → ClientPc → Prop
  | call {op} (c : Fin m) (act : a = .call c op) : ClientMove s a t .idle op.entry
  | quiet {pc pc'} (h : ClientStep s pc pc') : ClientMove s a t pc pc'
  | newTask {deps options async} (next : t.nextTaskId = s.nextTaskId + 1)
      (named : t.named s.nextTaskId = deps) :
      ClientMove s a t (.newTask deps options async) (.record s.nextTaskId deps)
  | addTask {u deps} (ids : u ∈ t.graph.ids) : ClientMove s a t (.add u deps) (.edges u deps)
  | addDependency {u d rest}
      (edge : u ∈ s.graph.ids → d ∈ s.graph.ids →
        ({ dependent := u, dependency := d } : Edge) ∈ t.edges) :
      ClientMove s a t (.edges u (d :: rest)) (.edges u rest)
  | marks {u} (target : u ∈ s.markTarget a) (free : (s.graph.task u).enqueued = false) :
      ClientMove s a t (.mark u) (.enqueue u)
  | enqueues {u} : ClientMove s a t (.enqueue u) .idle
  | cancelFlag {u} (target : u ∈ s.cancelTarget a) (fresh : (s.graph.task u).cancelled = false)
      (flag : (t.graph.task u).cancelled = true) :
      ClientMove s a t (.cancelFlag u) (.cancelStatus u)
  | cancelStatus {u} : ClientMove s a t (.cancelStatus u) (.cancelPromise u)
  | cancelNotify {u} : ClientMove s a t (.cancelNotify u) (.cancelClear u)
  | cancelClear {u} : ClientMove s a t (.cancelClear u) .idle

/-- What a step does to the worker that takes it. -/
inductive WorkerMove (s : State m n) (a : Action m n) (t : State m n) (w : Fin n) :
    WorkerPc → WorkerPc → Prop
  | takes {u} (mem : u ∈ s.queued) : WorkerMove s a t w .idle (.busy .onStart u)
  | line {now ok u line line'} (act : a = .worker w now ok)
      (h : LineStep s u now ok line line' (t.graph.task u)) :
      WorkerMove s a t w (.busy line u) (.busy line' u)
  | notifies {u} (notified : u ∈ t.notified) :
      WorkerMove s a t w (.busy .notify u) (.busy .clear u)
  | clears {u} : WorkerMove s a t w (.busy .clear u) .idle
  | resetsFlag {u} (flag : (t.graph.task u).enqueued = false) :
      WorkerMove s a t w (.busy .resetFlag u) (.busy .remark u)
  | remarks {u} (target : u ∈ s.markTarget a) (free : (s.graph.task u).enqueued = false) :
      WorkerMove s a t w (.busy .remark u) (.busy .resubmit u)
  | remarkLoses {u} : WorkerMove s a t w (.busy .remark u) .idle
  | resubmits {u} : WorkerMove s a t w (.busy .resubmit u) .idle

namespace Move

variable {s t : State m n} {a : Action m n}

theorem clientMove (hm : Move s a t) (c : Fin m) :
    t.clients c = s.clients c ∨ ClientMove s a t (s.clients c) (t.clients c) := by
  have hset : ∀ {d : Fin m} {pc : ClientPc}, t.clients = Function.update s.clients d pc →
      ClientMove s a t (s.clients d) pc →
      t.clients c = s.clients c ∨ ClientMove s a t (s.clients c) (t.clients c) := by
    intro d pc hd hmove
    rw [hd]
    by_cases hc : c = d
    · subst hc
      rw [Function.update_self]
      exact .inr hmove
    · exact .inl (Function.update_of_ne hc ..)
  cases hm with
  | call old => exact hset rfl (old ▸ .call _ rfl)
  | client hstep => exact hset rfl (.quiet hstep)
  | newTask now old => exact hset rfl (old ▸ .newTask rfl (Function.update_self ..))
  | addTask old => exact hset rfl (old ▸ .addTask (DependencyGraph.mem_addTask.mpr (.inr rfl)))
  | @addDependency c now u d rest old =>
    refine hset rfl (old ▸ .addDependency fun hu hd => ?_)
    show _ ∈ if u ∈ s.graph.ids ∧ d ∈ s.graph.ids then _ else _
    rw [if_pos ⟨hu, hd⟩]
    exact List.mem_append_right _ (List.mem_singleton_self _)
  | clientMarks old free => exact hset rfl (old ▸ .marks (by simp [State.markTarget, old]) free)
  | clientEnqueues old => exact hset rfl (old ▸ .enqueues)
  | cancelFlag old fresh =>
    refine hset rfl (old ▸ .cancelFlag (by simp [State.cancelTarget, old]) fresh ?_)
    rw [State.setClient_graph, State.modify_self]
  | cancelStatus old => exact hset rfl (old ▸ .cancelStatus)
  | cancelNotify old => exact hset rfl (old ▸ .cancelNotify)
  | cancelClear old => exact hset rfl (old ▸ .cancelClear)
  | _ => exact .inl rfl

/-- What is recorded of functions that have been started. -/
theorem started (hm : Move s a t) :
    t.started = s.started ∨ ∃ w now ok u, a = .worker w now ok ∧
      s.workers w = .busy .callFunction u ∧ t.started = s.started ++ [u] := by
  cases hm with
  | @line w now ok u line line' k old hline =>
    by_cases hcall : line = .callFunction
    · subst hcall
      refine .inr ⟨w, now, ok, u, rfl, old, ?_⟩
      show (if Line.callFunction = .callFunction then s.started ++ [u] else s.started) = _
      rw [if_pos rfl]
    · exact .inl (if_neg hcall)
  | _ => exact .inl rfl

/-- What is recorded of functions that have returned. -/
theorem returned (hm : Move s a t) :
    t.returned = s.returned ∨ ∃ w now ok u line', a = .worker w now ok ∧
      s.workers w = .busy .inFunction u ∧ t.workers w = .busy line' u ∧ line' ≠ .catchAll ∧
      LineStep s u now ok .inFunction line' (t.graph.task u) ∧ t.returned = s.returned ++ [u] := by
  cases hm with
  | @line w now ok u line line' k old hline =>
    by_cases hreturn : line = .inFunction ∧ line' ≠ .catchAll
    · obtain ⟨rfl, hne⟩ := hreturn
      refine .inr ⟨w, now, ok, u, line', rfl, old, Function.update_self .., hne, ?_,
        if_pos ⟨rfl, hne⟩⟩
      rw [State.goto_graph, State.modify_self]
      exact hline
    · exact .inl (if_neg hreturn)
  | _ => exact .inl rfl

/-- What a task is constructed with is never changed. -/
theorem fixed {β : Type} (p : Task → β) (hm : Move s a t) {u : TaskId}
    (hp : ∀ k status dependencies dependents count cancelled enqueued attempts startTime endTime,
      p { k with status := status, dependencies := dependencies, dependents := dependents,
                 dependenciesCount := count, cancelled := cancelled, enqueued := enqueued,
                 attempts := attempts, startTime := startTime, endTime := endTime } = p k) :
    p (t.graph.task u) = p (s.graph.task u) ∨
      (u = s.nextTaskId ∧ ∃ c deps options async now, s.clients c = .newTask deps options async ∧
        t.graph.task u = { id := u, options, createdTime := now, wrapsPromise := async }) := by
  have hmodify : ∀ {x : TaskId} {f : Task → Task}, t.graph = s.graph.modify x f →
      p (f (s.graph.task x)) = p (s.graph.task x) → p (t.graph.task u) = p (s.graph.task u) := by
    intro x f hg hf
    rw [hg]
    exact DependencyGraph.modify_frame p hf
  have hset : ∀ k status cancelled enqueued attempts startTime endTime,
      p { k with status := status, cancelled := cancelled, enqueued := enqueued,
                 attempts := attempts, startTime := startTime, endTime := endTime } = p k :=
    fun _ _ _ _ _ _ _ => hp _ _ _ _ _ _ _ _ _ _
  cases hm with
  | @newTask c deps options async now old =>
    -- The one step that constructs a task.
    by_cases hnew : u = s.nextTaskId
    · subst hnew
      refine .inr ⟨rfl, c, deps, options, async, now, old, ?_⟩
      rw [State.setClient_graph, State.newTask_graph, DependencyGraph.modify_self]
    · left
      rw [State.setClient_graph, State.newTask_graph, DependencyGraph.modify_of_ne hnew]
  | addDependency old =>
    exact .inl (DependencyGraph.addDependency_frame p fun _ _ _ _ => hp _ _ _ _ _ _ _ _ _ _)
  | cancelNotify old =>
    exact .inl (DependencyGraph.notifyTaskCompleted_frame p fun _ _ _ => hp _ _ _ _ _ _ _ _ _ _)
  | workerNotifies old =>
    exact .inl (DependencyGraph.notifyTaskCompleted_frame p fun _ _ _ => hp _ _ _ _ _ _ _ _ _ _)
  | clientMarks old free =>
    exact .inl (hmodify (State.setClient_graph.trans State.modify_graph) (hset _ _ _ _ _ _ _))
  | cancelFlag old fresh =>
    exact .inl (hmodify (State.setClient_graph.trans State.modify_graph) (hset _ _ _ _ _ _ _))
  | cancelStatus old =>
    exact .inl (hmodify (State.setClient_graph.trans State.modify_graph) (hset _ _ _ _ _ _ _))
  | cancelClear old =>
    exact .inl (hmodify (State.setClient_graph.trans State.modify_graph) (hset _ _ _ _ _ _ _))
  | schedulerMarks old free =>
    exact .inl (hmodify (State.setScheduler_graph.trans State.modify_graph) (hset _ _ _ _ _ _ _))
  | line old hline =>
    refine .inl (hmodify (State.goto_graph.trans State.modify_graph) ?_)
    exact hline.frame p fun _ _ _ _ _ => hset _ _ _ _ _ _ _
  | clears old =>
    exact .inl (hmodify (State.finish_graph.trans State.modify_graph) (hset _ _ _ _ _ _ _))
  | resetsFlag old =>
    exact .inl (hmodify (State.goto_graph.trans State.modify_graph) (hset _ _ _ _ _ _ _))
  | remarks old free =>
    exact .inl (hmodify (State.goto_graph.trans State.modify_graph) (hset _ _ _ _ _ _ _))
  | _ => exact .inl rfl

/-- A worker's step moves the worker. -/
theorem worker_ne {w : Fin n} {now : Int} {ok : Bool} (hm : Move s (.worker w now ok) t) :
    t.workers w ≠ s.workers w := by
  have hset : ∀ {pc : WorkerPc}, t.workers = Function.update s.workers w pc → pc ≠ s.workers w →
      t.workers w ≠ s.workers w := by
    intro pc hw hne
    rw [hw, Function.update_self]
    exact hne
  cases hm with
  | line old h =>
    refine hset rfl ?_
    rw [old]
    cases h <;> simp
  | workerNotifies old => exact hset rfl (by rw [old]; simp)
  | clears old => exact hset rfl (by rw [old]; simp)
  | resetsFlag old => exact hset rfl (by rw [old]; simp)
  | remarks old free => exact hset rfl (by rw [old]; simp)
  | remarkLoses old => exact hset rfl (by rw [old]; simp)
  | resubmits old => exact hset rfl (by rw [old]; simp)

/-- One client moves at a time. -/
theorem client_sole (hm : Move s a t) {c d : Fin m} (hc : t.clients c ≠ s.clients c)
    (hd : t.clients d ≠ s.clients d) : c = d := by
  have hset : ∀ {e : Fin m} {pc : ClientPc},
      t.clients = Function.update s.clients e pc → c = d := by
    intro e pc he
    rw [he] at hc hd
    have hce : c = e := by
      by_contra hne
      exact hc (Function.update_of_ne hne ..)
    have hde : d = e := by
      by_contra hne
      exact hd (Function.update_of_ne hne ..)
    exact hce.trans hde.symm
  cases hm with
  | call old => exact hset rfl
  | client hstep => exact hset rfl
  | newTask now old => exact hset rfl
  | addTask old => exact hset rfl
  | addDependency old => exact hset rfl
  | clientMarks old free => exact hset rfl
  | clientEnqueues old => exact hset rfl
  | cancelFlag old fresh => exact hset rfl
  | cancelStatus old => exact hset rfl
  | cancelNotify old => exact hset rfl
  | cancelClear old => exact hset rfl
  | _ => exact absurd rfl hc

theorem workerMove (hm : Move s a t) (w : Fin n) :
    t.workers w = s.workers w ∨ WorkerMove s a t w (s.workers w) (t.workers w) := by
  have hset : ∀ {v : Fin n} {pc : WorkerPc}, t.workers = Function.update s.workers v pc →
      WorkerMove s a t v (s.workers v) pc →
      t.workers w = s.workers w ∨ WorkerMove s a t w (s.workers w) (t.workers w) := by
    intro v pc hv hmove
    rw [hv]
    by_cases hw : w = v
    · subst hw
      rw [Function.update_self]
      exact .inr hmove
    · exact .inl (Function.update_of_ne hw ..)
  cases hm with
  | takes old mem => exact hset rfl (old ▸ .takes mem)
  | line old hline =>
    refine hset rfl (old ▸ .line rfl ?_)
    rw [State.goto_graph, State.modify_self]
    exact hline
  | workerNotifies old =>
    exact hset rfl (old ▸ .notifies (List.mem_append_right _ (List.mem_singleton_self _)))
  | clears old => exact hset rfl (old ▸ .clears)
  | resetsFlag old =>
    refine hset rfl (old ▸ .resetsFlag ?_)
    rw [State.goto_graph, State.modify_self]
    rfl
  | remarks old free => exact hset rfl (old ▸ .remarks (by simp [State.markTarget, old]) free)
  | remarkLoses old => exact hset rfl (old ▸ .remarkLoses)
  | resubmits old => exact hset rfl (old ▸ .resubmits)
  | _ => exact .inl rfl

end Move
end Executor
end NexusTask
