import Mathlib.Data.Fintype.Basic
import NexusTask.Graph
import NexusTask.Lib.Run
import NexusTask.Monitor

/-!
# The threads of `TaskExecutor`

`m` client threads call `submit`, `submit_with_dependencies`, `submit_async`, `cancel` and
`wait_for_completion`; the scheduler thread polls the graph; `n` workers execute tasks and run the
hooks `install_pool_hooks` installs. One step is one access to an atomic of a task, one critical
section of the graph or of `task_promises_`, one call on a promise, one `record_*` call, one pool
operation, or the start or the end of a task function.

The pool is the bag of the tasks in its queues: a worker may take any of them. `ThreadPool` allows
less, since it hands out a priority before another one and a queue from its front: what holds in
every run here holds over the pool (`Pooled`), but a run that shows a defect has to be one the pool
allows too. `stop` and what the pool does on its way down are left out.

What a step cannot know (a clock reading, whether a task function or a user callback returns, the
order in which an unordered map is traversed) is part of its action.
-/

set_option autoImplicit false

namespace NexusTask
namespace Executor

/-- The lines of one round of `worker_loop`, the calls it makes into `Task::execute`, the hooks, the
callback and `handle_failure` included. -/
inductive Line
  /-- `on_start`. -/
  | onStart
  /-- `Task::execute`: the test of `cancelled_`, the stores and the call of the function. -/
  | loadCancelled | storeCancelled | storeRunning | countAttempt | testDeadline | callFunction
  | inFunction | storeFailed
  /-- `catch (...)` in `execute`. -/
  | catchAll | storeCompleted
  /-- `on_success`, up to `invoke_callback`. -/
  | onSuccess
  /-- The user's callback, inside the one `submit_internal` installs. -/
  | callback
  /-- `promise->set_value` in the callback of `submit_async`. -/
  | setCallbackValue
  /-- The lookup of `fulfill_promise`, and its `set_value`. -/
  | fulfillPromise | setValue
  /-- `notify_task_completed` and `clear_enqueued_flag`, at the end of either path. -/
  | notify | clear
  /-- `on_failure`, up to `handle_failure`. -/
  | onFailure
  /-- `can_retry`: the test of `cancelled_`, then the rest. -/
  | testCancelled | testRetries
  | recordRetry
  /-- `reset_for_retry`: the status and the times, then the flag. -/
  | resetStatus | resetFlag
  /-- `try_mark_enqueued` and `submit` of a retry. -/
  | remark | resubmit
  /-- The lookup of `fail_promise`, and its `set_exception`. -/
  | failPromise | setException
  /-- An exception has left `on_failure`, and with it the thread function. -/
  | terminated
  deriving DecidableEq, Repr

inductive WorkerPc
  | idle
  | busy (line : Line) (task : TaskId)
  deriving DecidableEq, Repr

inductive ClientPc
  | idle
  /-- `submit_internal`: `next_task_id_.fetch_add` and the construction of the task. -/
  | newTask (deps : List TaskId) (options : TaskOptions) (async : Bool)
  | record (task : TaskId) (deps : List TaskId)
  | register (task : TaskId) (deps : List TaskId)
  | add (task : TaskId) (deps : List TaskId)
  /-- The dependencies still to be added. -/
  | edges (task : TaskId) (deps : List TaskId)
  /-- The three loads of `is_ready`. -/
  | readyStatus (task : TaskId)
  | readyCount (task : TaskId) (status : TaskStatus)
  | readyEnqueued (task : TaskId)
  | mark (task : TaskId)
  | enqueue (task : TaskId)
  /-- `cancel`: `get_task`, the two stores of `Task::cancel`, and what follows. -/
  | cancelGet (task : TaskId)
  | cancelFlag (task : TaskId)
  | cancelStatus (task : TaskId)
  | cancelPromise (task : TaskId)
  | cancelException (task : TaskId)
  | cancelRecord (task : TaskId)
  | cancelNotify (task : TaskId)
  | cancelClear (task : TaskId)
  /-- `wait_for_completion`. -/
  | waiting
  deriving DecidableEq

inductive SchedulerPc
  | idle
  | marking (rest : List TaskId)
  | submitting (task : TaskId) (rest : List TaskId)
  deriving DecidableEq

inductive Call
  | submit (options : TaskOptions)
  | submitWithDependencies (options : TaskOptions) (deps : List TaskId)
  | submitAsync (options : TaskOptions) (deps : List TaskId)
  | cancel (task : TaskId)
  | waitForCompletion

/-- What a promise was satisfied with. -/
inductive Outcome
  | value | exception
  deriving DecidableEq, Repr

/-- A promise, with the number of calls of `set_value` and `set_exception` on it. -/
structure Promise where
  result : Option Outcome := none
  attempts : Nat := 0
  deriving DecidableEq, Repr

/-- A call on a satisfied promise throws and changes nothing. -/
def Promise.set (p : Promise) (o : Outcome) : Promise :=
  { result := p.result.or (some o), attempts := p.attempts + 1 }

def Promise.satisfied (p : Promise) : Bool := p.result.isSome

/-- `task_promises_`, and the promises themselves. -/
structure Promises where
  table : List TaskId
  promise : TaskId → Promise

/-- The monitor, with the number of outcomes recorded for the execution each worker is in, and for
those that are over. -/
structure Recorder (n : Nat) where
  metrics : Metrics
  outcomes : Fin n → Option Nat
  concluded : List Nat

/-- The executor and its threads. History: the dependencies each task was submitted with and those
of them that were in the graph when the submission began, the edges added, the tasks
`notify_task_completed` was called for, and the task functions started and returned from. -/
structure State (m n : Nat) where
  graph : DependencyGraph
  queued : List TaskId
  nextTaskId : TaskId
  promises : Promises
  recorder : Recorder n
  scheduler : SchedulerPc
  clients : Fin m → ClientPc
  workers : Fin n → WorkerPc
  named : TaskId → List TaskId
  present : TaskId → List TaskId
  edges : List Edge
  notified : List TaskId
  started : List TaskId
  returned : List TaskId

inductive Action (m n : Nat)
  | call (c : Fin m) (op : Call)
  /-- The next step of client `c`, at clock reading `now`. -/
  | client (c : Fin m) (now : Int)
  /-- The scheduler's `get_ready_tasks`, with the tasks in this order. -/
  | poll (order : List TaskId)
  | scheduler
  /-- Worker `w` takes task `t` from one of the pool's queues. -/
  | take (w : Fin n) (t : TaskId)
  /-- The next step of worker `w`. `ok` says whether the function or callback it runs returns. -/
  | worker (w : Fin n) (now : Int) (ok : Bool)

def Call.entry : Call → ClientPc
  | .submit options => .newTask [] options false
  | .submitWithDependencies options deps => .newTask deps options false
  | .submitAsync options deps => .newTask deps options true
  | .cancel t => .cancelGet t
  | .waitForCompletion => .waiting

variable {m n : Nat}

namespace Recorder

variable (r : Recorder n) (w : Fin n)

/-- `on_start`, for a task created at `created`. -/
def start (created now : Int) : Recorder n :=
  let wait := (now - created).tdiv 1000
  let metrics := r.metrics.recordStart
  { r with metrics := if wait > 0 then metrics.recordQueueWait (u64 wait) else metrics,
           outcomes := Function.update r.outcomes w (some 0) }

def completion (time : Int) : Recorder n :=
  { r with metrics := r.metrics.recordCompletion time,
           outcomes := Function.update r.outcomes w ((r.outcomes w).map (· + 1)) }

def failure : Recorder n :=
  { r with metrics := r.metrics.recordFailure,
           outcomes := Function.update r.outcomes w ((r.outcomes w).map (· + 1)) }

/-- The round of worker `w` is over. -/
def conclude : Recorder n :=
  { r with outcomes := Function.update r.outcomes w none,
           concluded := r.concluded ++ (r.outcomes w).toList }

end Recorder

namespace State

variable (s : State m n)

def modify (t : TaskId) (f : Task → Task) : State m n := { s with graph := s.graph.modify t f }

def setWorker (w : Fin n) (pc : WorkerPc) : State m n :=
  { s with workers := Function.update s.workers w pc }

def setClient (c : Fin m) (pc : ClientPc) : State m n :=
  { s with clients := Function.update s.clients c pc }

def setScheduler (pc : SchedulerPc) : State m n := { s with scheduler := pc }

def setPromises (p : Promises) : State m n := { s with promises := p }

def setRecorder (r : Recorder n) : State m n := { s with recorder := r }

def enqueue (t : TaskId) : State m n := { s with queued := s.queued ++ [t] }

/-- The task of a submission that has just got its id. -/
def newTask (deps : List TaskId) (options : TaskOptions) (async : Bool) (now : Int) : State m n :=
  { s with
    graph := s.graph.modify s.nextTaskId fun _ =>
      { id := s.nextTaskId, options, createdTime := now, wrapsPromise := async }
    nextTaskId := s.nextTaskId + 1
    named := Function.update s.named s.nextTaskId deps
    present := Function.update s.present s.nextTaskId (deps.filter (· ∈ s.graph.ids)) }

/-- `add_task`. -/
def addTask (t : TaskId) : State m n := { s with graph := s.graph.addTask t }

/-- `add_dependency`. -/
def addDependency (t d : TaskId) : State m n :=
  { s with graph := s.graph.addDependency t d,
           edges := if t ∈ s.graph.ids ∧ d ∈ s.graph.ids then
             s.edges ++ [{ dependent := t, dependency := d }] else s.edges }

/-- `notify_task_completed`. -/
def notify (t : TaskId) : State m n :=
  { s with graph := s.graph.notifyTaskCompleted t,
           edges := if t ∈ s.graph.ids then s.edges.map (Edge.notify t) else s.edges,
           notified := s.notified ++ [t] }

/-- Worker `w` goes on with task `t` at the given line. -/
def goto (w : Fin n) (t : TaskId) (line : Line) : State m n := s.setWorker w (.busy line t)

/-- Worker `w` is back at the head of its loop. -/
def finish (w : Fin n) : State m n := (s.setRecorder (s.recorder.conclude w)).setWorker w .idle

def setPromise (t : TaskId) (o : Outcome) : State m n :=
  s.setPromises { s.promises with
    promise := Function.update s.promises.promise t ((s.promises.promise t).set o) }

def registerPromise (t : TaskId) : State m n :=
  s.setPromises { s.promises with table := s.promises.table ++ [t] }

/-- The entry is moved out of `task_promises_`. -/
def takePromise (t : TaskId) : State m n :=
  s.setPromises { s.promises with table := s.promises.table.erase t }

def satisfied (t : TaskId) : Bool := (s.promises.promise t).satisfied

end State

/-- An executor just constructed. -/
def start (m n : Nat) : State m n where
  graph := { ids := [], task := fun id => { id } }
  queued := []
  nextTaskId := 1
  promises := { table := [], promise := fun _ => {} }
  recorder := { metrics := {}, outcomes := fun _ => none, concluded := [] }
  scheduler := .idle
  clients := fun _ => .idle
  workers := fun _ => .idle
  named := fun _ => []
  present := fun _ => []
  edges := []
  notified := []
  started := []
  returned := []

/-- The next step of worker `w`, which is at the given line with task `t`. -/
def lineStep (s : State m n) (w : Fin n) (t : TaskId) (now : Int) (ok : Bool) :
    Line → Option (State m n)
  | .onStart =>
      some ((s.setRecorder (s.recorder.start w (s.graph.task t).createdTime now)).goto
        w t .loadCancelled)
  | .loadCancelled =>
      some (s.goto w t (if (s.graph.task t).cancelled then .storeCancelled else .storeRunning))
  | .storeCancelled =>
      some ((s.modify t fun k => { k with status := .cancelled }).goto w t .onFailure)
  | .storeRunning =>
      some ((s.modify t fun k => { k with status := .running }).goto w t .countAttempt)
  | .countAttempt =>
      some ((s.modify t fun k => { k with startTime := some now, attempts := k.attempts + 1 }).goto
        w t .testDeadline)
  | .testDeadline =>
      some (s.goto w t
        (if (s.graph.task t).deadlinePassed now then .storeFailed else .callFunction))
  | .callFunction => some ({ s with started := s.started ++ [t] }.goto w t .inFunction)
  | .inFunction =>
      if ok then
        some (({ s with returned := s.returned ++ [t] }.modify t
          fun k => { k with endTime := some now }).goto w t
            (if (s.graph.task t).overran now then .storeFailed else .storeCompleted))
      else some (s.goto w t .catchAll)
  | .storeFailed =>
      some ((s.modify t fun k => { k with status := .failed }).goto w t .catchAll)
  | .catchAll =>
      some ((s.modify t fun k => { k with status := .failed, endTime := some now }).goto
        w t .onFailure)
  | .storeCompleted =>
      some ((s.modify t fun k => { k with status := .completed }).goto w t .onSuccess)
  | .onSuccess =>
      some ((s.setRecorder (s.recorder.completion w (s.graph.task t).executionTime)).goto
        w t .callback)
  | .callback =>
      if ok then
        some (s.goto w t
          (if (s.graph.task t).wrapsPromise then .setCallbackValue else .fulfillPromise))
      else some (s.goto w t .onFailure)
  | .setCallbackValue =>
      -- `future_error` leaves `on_success`, and the `catch` of `worker_loop` gets it.
      some ((s.setPromise t .value).goto w t
        (if s.satisfied t then .onFailure else .fulfillPromise))
  | .fulfillPromise =>
      if t ∈ s.promises.table then some ((s.takePromise t).goto w t .setValue)
      else some (s.goto w t .notify)
  | .setValue =>
      some ((s.setPromise t .value).goto w t (if s.satisfied t then .onFailure else .notify))
  | .notify => some ((s.notify t).goto w t .clear)
  | .clear => some ((s.modify t Task.clearEnqueuedFlag).finish w)
  | .onFailure => some ((s.setRecorder (s.recorder.failure w)).goto w t .testCancelled)
  | .testCancelled =>
      some (s.goto w t (if (s.graph.task t).cancelled then .failPromise else .testRetries))
  | .testRetries =>
      some (s.goto w t (if (s.graph.task t).retriesLeft then .recordRetry else .failPromise))
  | .recordRetry =>
      some ((s.setRecorder { s.recorder with metrics := s.recorder.metrics.recordRetry }).goto
        w t .resetStatus)
  | .resetStatus =>
      some ((s.modify t fun k =>
        { k with status := .pending, startTime := none, endTime := none }).goto w t .resetFlag)
  | .resetFlag => some ((s.modify t Task.clearEnqueuedFlag).goto w t .remark)
  | .remark =>
      if (s.graph.task t).tryMarkEnqueued.1 then
        some ((s.modify t fun k => k.tryMarkEnqueued.2).goto w t .resubmit)
      -- Somebody else has enqueued the task since its flag was cleared.
      else some (s.finish w)
  | .resubmit => some ((s.enqueue t).finish w)
  | .failPromise =>
      if t ∈ s.promises.table then some ((s.takePromise t).goto w t .setException)
      else some (s.goto w t .notify)
  | .setException =>
      -- Here it leaves the `catch` of `worker_loop`.
      some ((s.setPromise t .exception).goto w t
        (if s.satisfied t then .terminated else .notify))
  | .terminated => none

/-- The next step of client `c`. -/
def clientStep (s : State m n) (c : Fin m) (now : Int) : Option (State m n) :=
  match s.clients c with
  | .idle => none
  | .newTask deps options async =>
      some ((s.newTask deps options async now).setClient c (.record s.nextTaskId deps))
  | .record t deps =>
      some ((s.setRecorder { s.recorder with
        metrics := s.recorder.metrics.recordSubmission }).setClient c
          (if (s.graph.task t).wrapsPromise then .register t deps else .add t deps))
  | .register t deps => some ((s.registerPromise t).setClient c (.add t deps))
  | .add t deps => some ((s.addTask t).setClient c (.edges t deps))
  | .edges t (d :: rest) => some ((s.addDependency t d).setClient c (.edges t rest))
  | .edges t [] => some (s.setClient c (.readyStatus t))
  | .readyStatus t => some (s.setClient c (.readyCount t (s.graph.task t).status))
  | .readyCount t status =>
      some (s.setClient c (if (s.graph.task t).dependenciesCount == 0 && status.isWaiting
        then .readyEnqueued t else .idle))
  | .readyEnqueued t => some (s.setClient c (if (s.graph.task t).enqueued then .idle else .mark t))
  | .mark t =>
      if (s.graph.task t).tryMarkEnqueued.1 then
        some ((s.modify t fun k => k.tryMarkEnqueued.2).setClient c (.enqueue t))
      else some (s.setClient c .idle)
  | .enqueue t => some ((s.enqueue t).setClient c .idle)
  | .cancelGet t => some (s.setClient c (if t ∈ s.graph.ids then .cancelFlag t else .idle))
  | .cancelFlag t =>
      -- A second `cancel` returns false.
      if (s.graph.task t).cancelled then some (s.setClient c .idle)
      else some ((s.modify t fun k => { k with cancelled := true }).setClient c (.cancelStatus t))
  | .cancelStatus t =>
      some ((s.modify t fun k => { k with status := .cancelled }).setClient c (.cancelPromise t))
  | .cancelPromise t =>
      if t ∈ s.promises.table then some ((s.takePromise t).setClient c (.cancelException t))
      else some (s.setClient c (.cancelRecord t))
  | .cancelException t =>
      -- And here `cancel`, before the cancellation is recorded.
      some ((s.setPromise t .exception).setClient c
        (if s.satisfied t then .idle else .cancelRecord t))
  | .cancelRecord t =>
      some ((s.setRecorder { s.recorder with
        metrics := s.recorder.metrics.recordCancellation }).setClient c (.cancelNotify t))
  | .cancelNotify t => some ((s.notify t).setClient c (.cancelClear t))
  | .cancelClear t => some ((s.modify t Task.clearEnqueuedFlag).setClient c .idle)
  | .waiting => some (s.setClient c (if s.graph.allCompleted then .idle else .waiting))

/-- The scheduler between two polls. -/
def schedulerStep (s : State m n) : Option (State m n) :=
  match s.scheduler with
  | .idle => none
  | .marking [] => some (s.setScheduler .idle)
  | .marking (t :: rest) =>
      if (s.graph.task t).tryMarkEnqueued.1 then
        some ((s.modify t fun k => k.tryMarkEnqueued.2).setScheduler (.submitting t rest))
      else some (s.setScheduler (.marking rest))
  | .submitting t rest => some ((s.enqueue t).setScheduler (.marking rest))

def step (s : State m n) : Action m n → Option (State m n)
  | .call c op => if s.clients c = .idle then some (s.setClient c op.entry) else none
  | .client c now => clientStep s c now
  | .poll order =>
      if s.scheduler = .idle ∧ order.Perm s.graph.getReadyTasks then
        some (s.setScheduler (.marking order))
      else none
  | .scheduler => schedulerStep s
  | .take w t =>
      if s.workers w = .idle ∧ t ∈ s.queued then
        some ({ s with queued := s.queued.erase t }.goto w t .onStart)
      else none
  | .worker w now ok =>
      match s.workers w with
      | .idle => none
      | .busy line t => lineStep s w t now ok line

end Executor
end NexusTask
