import NexusTask.Lib.Run
import NexusTask.Pool.Queues
import NexusTask.Queue.Basic

/-!
# The threads of the pool

`n` workers run `worker_loop`; `m` client threads call `submit`, `try_submit`, `pause`, `resume` and
`shutdown`. One step is one access to `running_`, `paused_` or `next_worker_`, one queue operation,
one evaluation of a wait predicate, the release of the mutex together with blocking, or one
notification. Between a false predicate and blocking a worker is at `block`: it holds `mutex_`, but
nobody else needs `mutex_` to change what the predicate read.

A task function that calls `submit` itself is a worker at `execute` and a client making that call.
-/

set_option autoImplicit false

namespace NexusTask
namespace Pool

open Transition

/-- The two waits of `worker_loop`: for the pool to be resumed, and for work. -/
inductive Wait
  | resumed | work
  deriving DecidableEq

inductive WorkerPc (n : Nat) (α : Type)
  /-- `running_.load` at the head of the loop. -/
  | testRunning
  | testPaused
  /-- Acquiring `mutex_`, before the wait or on the way out of it. -/
  | lock (wait : Wait)
  /-- Evaluating the wait predicate. -/
  | test (wait : Wait)
  /-- The predicate was false; the worker still holds `mutex_`. -/
  | block (wait : Wait)
  | blocked (wait : Wait)
  /-- The queues it has still to look into. -/
  | scan (rest : List (QueueRef n))
  | execute (task : α)
  | exited
  deriving DecidableEq

inductive SubmitKind
  | submit | trySubmit
  deriving DecidableEq

inductive ClientPc (n : Nat) (α : Type)
  | idle
  | testRunning (kind : SubmitKind) (task : α) (priority : TaskPriority)
  /-- `next_worker_.fetch_add`. -/
  | pickWorker (kind : SubmitKind) (task : α) (priority : TaskPriority)
  | tryLocal (kind : SubmitKind) (task : α) (priority : TaskPriority) (target : Fin n)
  | tryGlobal (kind : SubmitKind) (task : α) (priority : TaskPriority)
  /-- Inside `wait_enqueue_for`. -/
  | waitEnqueue (task : α) (priority : TaskPriority)
  /-- `wait_enqueue_for` timed out; `running_` decides whether to go round again. -/
  | recheck (task : α) (priority : TaskPriority)
  /-- `cv_.notify_one`. `placed` is false when `submit` gave up on a stopped pool. -/
  | notify (task : α) (placed : Bool)
  | pauseStore
  | resumeStore
  | resumeNotify
  | shutdownStore
  | shutdownNotify
  /-- Joining worker `k`. -/
  | join (k : Nat)
  deriving DecidableEq

/-- The calls a client can make; `priority` is `priority_override.value_or(task->priority())`. -/
inductive Call (α : Type)
  | submit (task : α) (priority : TaskPriority)
  | trySubmit (task : α) (priority : TaskPriority)
  | pause
  | resume
  | shutdown

/-- The pool, its threads, and the history: the tasks put into a queue, taken out of one and
executed, and those whose submission returned (with true, for `try_submit`) before `shutdown` was
called. -/
structure State (m n : Nat) (α : Type) where
  running : Bool
  paused : Bool
  nextWorker : Nat
  queues : Queues n α
  mutex : Option (Fin n)
  workers : Fin n → WorkerPc n α
  clients : Fin m → ClientPc n α
  placed : List α
  taken : List α
  executed : List α
  accepted : List α
  shutdownCalled : Bool
  shutdownNotified : Bool
  shutdownReturned : Bool

inductive Action (m n : Nat) (α : Type)
  | call (c : Fin m) (op : Call α)
  /-- The next step of client `c`. A `notify_one` taken this way finds nobody blocked. -/
  | client (c : Fin m)
  /-- The `notify_one` client `c` is at wakes worker `w`. -/
  | wake (c : Fin m) (w : Fin n)
  /-- The `wait_enqueue_for` client `c` is in reaches its deadline. -/
  | timeOut (c : Fin m)
  | worker (w : Fin n)
  /-- Worker `w` returns from blocking without a notification. -/
  | spurious (w : Fin n)

variable {m n : Nat} {α : Type}

namespace Call

def entry : Call α → ClientPc n α
  | .submit x p => .testRunning .submit x p
  | .trySubmit x p => .testRunning .trySubmit x p
  | .pause => .pauseStore
  | .resume => .resumeStore
  | .shutdown => .shutdownStore

def isShutdown : Call α → Bool
  | .shutdown => true
  | _ => false

end Call

namespace WorkerPc

/-- What a worker does when notified: a blocked one returns to acquire the mutex. -/
def woken : WorkerPc n α → WorkerPc n α
  | .blocked k => .lock k
  | pc => pc

def isBlocked : WorkerPc n α → Bool
  | .blocked _ => true
  | _ => false

/-- Between a false wait predicate and blocking. -/
def inWindow : WorkerPc n α → Bool
  | .block _ => true
  | _ => false

/-- The task a worker has taken and not finished. -/
def hand : WorkerPc n α → List α
  | .execute x => [x]
  | _ => []

end WorkerPc

namespace State

def setWorker (s : State m n α) (w : Fin n) (pc : WorkerPc n α) : State m n α :=
  { s with workers := Function.update s.workers w pc }

def setClient (s : State m n α) (c : Fin m) (pc : ClientPc n α) : State m n α :=
  { s with clients := Function.update s.clients c pc }

/-- `cv_.notify_all`. -/
def notifyAll (s : State m n α) : State m n α := { s with workers := fun w => (s.workers w).woken }

/-- A submission of `x` returns to its caller. -/
def accept (s : State m n α) (x : α) : State m n α :=
  if s.shutdownCalled then s else { s with accepted := s.accepted ++ [x] }

/-- The predicate of a wait. -/
def predicate (s : State m n α) : Wait → Bool
  | .resumed => !s.paused || !s.running
  | .work => !s.running || hasPendingWork s.queues

/-- One try to put `x` into queue `r`; `full` is where the client goes when there is no room. -/
def place (s : State m n α) (c : Fin m) (r : QueueRef n) (x : α) (full : ClientPc n α) :
    State m n α :=
  match tryEnqueue s.queues r x with
  | some q => { s with queues := q, placed := s.placed ++ [x] }.setClient c (.notify x true)
  | none => s.setClient c full

end State

/-- A pool that was just constructed. -/
def start (m n : Nat) (α : Type) : State m n α where
  running := true
  paused := false
  nextWorker := 0
  queues := fun _ => []
  mutex := none
  workers := fun _ => .testRunning
  clients := fun _ => .idle
  placed := []
  taken := []
  executed := []
  accepted := []
  shutdownCalled := false
  shutdownNotified := false
  shutdownReturned := false

/-- The next step of client `c`. -/
def clientStep (s : State m n α) (c : Fin m) : Option (State m n α) :=
  match s.clients c with
  | .idle => none
  | .testRunning kind x p =>
      some (s.setClient c (if s.running then .pickWorker kind x p else .idle))
  | .pickWorker kind x p =>
      -- Without workers the remainder is undefined.
      if h : 0 < n then
        some ({ s with nextWorker := (s.nextWorker + 1) % sizeMax }.setClient c
          (.tryLocal kind x p ⟨s.nextWorker % n, Nat.mod_lt _ h⟩))
      else none
  | .tryLocal kind x p target => some (s.place c (some target, p) x (.tryGlobal kind x p))
  | .tryGlobal kind x p =>
      some (s.place c (none, p) x (match kind with
        | .submit => .waitEnqueue x p
        | .trySubmit => .idle))
  | .waitEnqueue x p => some (s.place c (none, p) x (.waitEnqueue x p))
  | .recheck x p =>
      -- On a stopped pool `submit` returns as if it had enqueued the task.
      some (s.setClient c (if s.running then .tryGlobal .submit x p else .notify x false))
  | .notify x _ =>
      -- With a worker blocked the notification is the action `wake`.
      if ∀ w, (s.workers w).isBlocked = false then some ((s.accept x).setClient c .idle) else none
  | .pauseStore => some ({ s with paused := true }.setClient c .idle)
  | .resumeStore => some ({ s with paused := false }.setClient c .resumeNotify)
  | .resumeNotify => some (s.notifyAll.setClient c .idle)
  | .shutdownStore => some ({ s with running := false }.setClient c .shutdownNotify)
  | .shutdownNotify =>
      some ({ s.notifyAll with shutdownNotified := true }.setClient c (.join 0))
  | .join k =>
      if h : k < n then
        match s.workers ⟨k, h⟩ with
        | .exited => some (s.setClient c (.join (k + 1)))
        | _ => none
      else some ({ s with shutdownReturned := true }.setClient c .idle)

/-- The next step of worker `w`. -/
def workerStep (s : State m n α) (w : Fin n) : Option (State m n α) :=
  match s.workers w with
  | .testRunning => some (s.setWorker w (if s.running then .testPaused else .exited))
  | .testPaused => some (s.setWorker w (if s.paused then .lock .resumed else .scan (scanOrder w)))
  | .lock k =>
      match s.mutex with
      | none => some ({ s with mutex := some w }.setWorker w (.test k))
      | some _ => none
  | .test k =>
      if s.predicate k then
        some ({ s with mutex := none }.setWorker w (match k with
          | .resumed => .scan (scanOrder w)
          | .work => .testRunning))
      else some (s.setWorker w (.block k))
  | .block k => some ({ s with mutex := none }.setWorker w (.blocked k))
  | .blocked _ => none
  | .scan [] => some (s.setWorker w (.lock .work))
  | .scan (r :: rest) =>
      match s.queues r with
      | [] => some (s.setWorker w (.scan rest))
      | x :: xs =>
          some ({ s with queues := Function.update s.queues r xs,
                         taken := s.taken ++ [x] }.setWorker w (.execute x))
  | .execute x => some ({ s with executed := s.executed ++ [x] }.setWorker w .testRunning)
  | .exited => none

def step (s : State m n α) : Action m n α → Option (State m n α)
  | .call c op =>
      match s.clients c with
      | .idle =>
          some ({ s with shutdownCalled := s.shutdownCalled || op.isShutdown }.setClient c op.entry)
      | _ => none
  | .client c => clientStep s c
  | .wake c w =>
      match s.clients c, s.workers w with
      | .notify x _, .blocked k => some (((s.accept x).setWorker w (.lock k)).setClient c .idle)
      | _, _ => none
  | .timeOut c =>
      match s.clients c with
      | .waitEnqueue x p => some (s.setClient c (.recheck x p))
      | _ => none
  | .worker w => workerStep s w
  | .spurious w =>
      match s.workers w with
      | .blocked k => some (s.setWorker w (.lock k))
      | _ => none

end Pool
end NexusTask
