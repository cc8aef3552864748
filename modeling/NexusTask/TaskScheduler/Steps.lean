import Mathlib.Logic.Function.Basic
import NexusTask.Lib.MachineInt
import NexusTask.Lib.Run
import NexusTask.Task

/-!
# The threads of `TaskScheduler`

`m` client threads schedule tasks, cancel them, and start and stop the scheduler; its thread runs
`scheduler_loop`. A critical section of a client is one step, for which `mutex_` has to be free.
The loop takes its accesses one by one, and holds `mutex_` on the lines that say so. A notification
wakes the loop if it is blocked, and is gone otherwise.

The heap is the list of its tasks, and `top` is any one of those with the least `scheduled_time`.
Clock readings are nanosecond counts, intervals and delays are millisecond counts; where the code
adds the two (`afterMillis`) it does so in `int64_t`. What a step cannot know (a clock reading,
which task is on top, whether `executor_.submit` returns) is part of its action.

The code hands `cv_.wait_until` a reference to the time of the task on top. Here the deadline is the
time that task has at the call, whatever happens to the heap while the loop waits. What the tasks do
once `executor_.submit` has them is left out.
-/

set_option autoImplicit false

namespace NexusTask
namespace TaskScheduler

variable {m : Nat} {φ : Type}

structure ScheduledTask (φ : Type) where
  func : φ
  name : String
  options : TaskOptions
  scheduledTime : Int
  /-- 0 for a task that runs once. -/
  interval : Int
  id : TaskId
  deriving DecidableEq

/-- The interval in nanoseconds. -/
def ScheduledTask.period (task : ScheduledTask φ) : Int := task.interval * 1000000

/-- The loop reschedules the task. -/
def ScheduledTask.Periodic (task : ScheduledTask φ) : Prop := 0 < task.interval

instance (task : ScheduledTask φ) : Decidable task.Periodic := inferInstanceAs (Decidable (_ < _))

/-- The lines of `scheduler_loop`. -/
inductive LoopPc (φ : Type)
  /-- There is no thread: it was not started, or it has been joined. -/
  | absent
  | testRunning
  | lock
  /-- From here on it holds `mutex_`. -/
  | testEmpty
  /-- `cv_.wait`: the predicate, which was false, and the block that releases `mutex_`. -/
  | testWait | block
  | waiting
  | woken
  /-- It reads the clock and looks at the top of the heap. -/
  | readClock
  /-- The task is off the heap and `mutex_` is released. -/
  | submitting (task : ScheduledTask φ) (now : Int)
  /-- The task was submitted and is to be pushed again. -/
  | relock (task : ScheduledTask φ) (now : Int)
  /-- `cv_.wait_until`, likewise. -/
  | testTimedWait (deadline : Int)
  | timedBlock (deadline : Int)
  | timedWaiting (deadline : Int)
  | timedWoken (deadline : Int)
  | left
  /-- An exception has left `scheduler_loop`. -/
  | threw
  deriving DecidableEq

/-- A copy of a task that is off the heap, and the clock reading it was taken at. -/
structure Held (φ : Type) where
  task : ScheduledTask φ
  now : Int
  submitted : Bool
  deriving DecidableEq

inductive ClientPc
  | idle
  /-- `start`, after the exchange: the thread is constructed and assigned. -/
  | spawning
  /-- `stop`, after the exchange. -/
  | notifying
  | joining
  /-- The thread makes no more calls. -/
  | gone
  deriving DecidableEq

/-- What has happened. A submission carries the clock reading the loop took the task at. -/
inductive Entry (φ : Type)
  | scheduled (task : ScheduledTask φ)
  | cancelled (id : TaskId) (found : Bool)
  | taken (task : ScheduledTask φ) (now : Int)
  | submitted (task : ScheduledTask φ) (now : Int)
  deriving DecidableEq

/-- `terminated`: `std::terminate` was called. -/
structure State (m : Nat) (φ : Type) where
  tasks : List (ScheduledTask φ)
  nextId : TaskId
  running : Bool
  loop : LoopPc φ
  clock : Int
  clients : Fin m → ClientPc
  terminated : Bool
  log : List (Entry φ)

inductive Action (m : Nat) (φ : Type)
  | scheduleAt (c : Fin m) (func : φ) (time : Int) (name : String) (options : TaskOptions)
  /-- `reading` is what the clock said before the call of `schedule_at`. -/
  | scheduleAfter (c : Fin m) (func : φ) (reading delay : Int) (name : String)
      (options : TaskOptions)
  | schedulePeriodic (c : Fin m) (func : φ) (now interval : Int) (name : String)
      (options : TaskOptions)
  /-- The tasks come off the heap in this order. -/
  | cancel (c : Fin m) (id : TaskId) (order : List (ScheduledTask φ))
  | start (c : Fin m)
  | stop (c : Fin m)
  | leave (c : Fin m)
  /-- The next step of client `c` in `start` or `stop`. -/
  | client (c : Fin m)
  /-- Time goes by. -/
  | tick (now : Int)
  /-- The loop's next step, where it does not wait for anything. -/
  | loop
  /-- The loop reads the clock; the task at this index is on top. -/
  | read (now : Int) (top : Nat)
  | submitReturns
  | submitThrows
  /-- The loop wakes without a notification, or once the deadline is past. -/
  | wake
  | timeout

namespace LoopPc

def holdsMutex : LoopPc φ → Bool
  | .testEmpty | .testWait | .block | .readClock | .testTimedWait _ | .timedBlock _ => true
  | _ => false

/-- After a notification. -/
def notified : LoopPc φ → LoopPc φ
  | .waiting => .woken
  | .timedWaiting deadline => .timedWoken deadline
  | pc => pc

/-- What the loop has in hand: the task it took, and whether it has submitted it. -/
def held : LoopPc φ → Option (Held φ)
  | .submitting task now => some { task, now, submitted := false }
  | .relock task now => some { task, now, submitted := true }
  | _ => none

@[simp] theorem held_notified (pc : LoopPc φ) : pc.notified.held = pc.held := by cases pc <;> rfl

end LoopPc

namespace State

variable (s : State m φ)

def setClient (c : Fin m) (pc : ClientPc) : State m φ :=
  { s with clients := Function.update s.clients c pc }

/-- Client `c` can take `mutex_` and make a call. -/
def free (c : Fin m) : Prop := s.clients c = .idle ∧ s.loop.holdsMutex = false

instance (c : Fin m) : Decidable (s.free c) := inferInstanceAs (Decidable (_ ∧ _))

def notify : State m φ := { s with loop := s.loop.notified }

/-- The name a task gets and its id: a name made up for it takes an id as well. -/
def label (title name : String) : String × TaskId :=
  if name.isEmpty then (title ++ toString s.nextId, s.nextId + 1) else (name, s.nextId)

/-- The task is pushed and the loop notified. -/
def push (task : ScheduledTask φ) : State m φ :=
  { s with tasks := s.tasks ++ [task], nextId := task.id + 1, loop := s.loop.notified,
           log := s.log ++ [.scheduled task] }

def scheduleAt (func : φ) (time : Int) (name : String) (options : TaskOptions) : State m φ :=
  let (name, id) := s.label "ScheduledTask_" name
  s.push { func, name, options, scheduledTime := time, interval := 0, id }

def scheduleAfter (func : φ) (reading delay : Int) (name : String) (options : TaskOptions) :
    State m φ :=
  s.scheduleAt func (afterMillis reading delay) name options

def schedulePeriodic (func : φ) (now interval : Int) (name : String) (options : TaskOptions) :
    State m φ :=
  let (name, id) := s.label "PeriodicTask_" name
  { s with clock := now }.push
    { func, name, options, scheduledTime := afterMillis now interval, interval, id }

end State

/-- The loop of `cancel`: whether a task was found, and the heap without it. -/
def drain (id : TaskId) : List (ScheduledTask φ) → Bool × List (ScheduledTask φ)
  | [] => (false, [])
  | task :: rest =>
      let (found, temp) := drain id rest
      if task.id = id then (true, temp) else (found, task :: temp)

namespace State

variable (s : State m φ)

def cancel (id : TaskId) (order : List (ScheduledTask φ)) : State m φ :=
  let (found, temp) := drain id order
  { s with tasks := temp, log := s.log ++ [.cancelled id found] }

/-- The next step of client `c` in `start` or `stop`. -/
def clientStep (c : Fin m) : Option (State m φ) :=
  match s.clients c with
  | .idle | .gone => none
  | .spawning =>
      match s.loop with
      | .absent => some ({ s with loop := .testRunning }.setClient c .idle)
      -- A thread is assigned to one that is joinable.
      | _ => some { s with terminated := true }
  | .notifying => some (s.notify.setClient c .joining)
  | .joining =>
      match s.loop with
      | .left => some ({ s with loop := .absent }.setClient c .idle)
      | .absent => some (s.setClient c .idle)
      | _ => none

/-- The loop's next step, where it depends on the state alone. -/
def loopStep : Option (State m φ) :=
  match s.loop with
  | .testRunning => some { s with loop := if s.running then .lock else .left }
  | .lock => some { s with loop := .testEmpty }
  | .testEmpty => some { s with loop := if s.tasks.isEmpty then .testWait else .readClock }
  | .testWait =>
      some { s with loop := if !s.running || !s.tasks.isEmpty then .testRunning else .block }
  | .block => some { s with loop := .waiting }
  | .woken => some { s with loop := .testWait }
  | .relock task now => some {
      s with tasks := s.tasks ++ [{ task with scheduledTime := afterMillis now task.interval }],
             loop := .testRunning }
  | .testTimedWait deadline =>
      some { s with loop := if !s.running then .testRunning else .timedBlock deadline }
  | .timedBlock deadline => some { s with loop := .timedWaiting deadline }
  | .timedWoken deadline => some { s with loop := .testTimedWait deadline }
  | .absent | .waiting | .readClock | .submitting _ _ | .timedWaiting _ | .left | .threw => none

/-- The loop finds `task` on top at clock reading `now`. -/
def look (now : Int) (top : Nat) (task : ScheduledTask φ) : State m φ :=
  if task.scheduledTime ≤ now then
    { s with clock := now, tasks := s.tasks.eraseIdx top, loop := .submitting task now,
             log := s.log ++ [.taken task now] }
  else { s with clock := now, loop := .testTimedWait task.scheduledTime }

end State

/-- Two tasks in the order in which they may come off the heap. -/
def ScheduledTask.NotAfter (task other : ScheduledTask φ) : Prop :=
  task.scheduledTime ≤ other.scheduledTime

instance (task other : ScheduledTask φ) : Decidable (task.NotAfter other) :=
  inferInstanceAs (Decidable (_ ≤ _))

variable [DecidableEq φ]

def step (s : State m φ) (a : Action m φ) : Option (State m φ) :=
  if s.terminated then none
  else match a with
  | .scheduleAt c func time name options =>
      if s.free c then some (s.scheduleAt func time name options) else none
  | .scheduleAfter c func reading delay name options =>
      if s.free c ∧ reading ≤ s.clock then some (s.scheduleAfter func reading delay name options)
      else none
  | .schedulePeriodic c func now interval name options =>
      if s.free c ∧ s.clock ≤ now then some (s.schedulePeriodic func now interval name options)
      else none
  | .cancel c id order =>
      if s.free c ∧ order.Perm s.tasks ∧ order.Pairwise ScheduledTask.NotAfter then
        some (s.cancel id order)
      else none
  | .start c =>
      if s.clients c = .idle then
        some (if s.running then s else { s with running := true }.setClient c .spawning)
      else none
  | .stop c =>
      if s.clients c = .idle then
        some (if s.running then { s with running := false }.setClient c .notifying else s)
      else none
  | .leave c => if s.clients c = .idle then some (s.setClient c .gone) else none
  | .client c => s.clientStep c
  | .tick now => if s.clock ≤ now then some { s with clock := now } else none
  | .loop => s.loopStep
  | .read now top =>
      match s.loop, s.tasks[top]? with
      | .readClock, some task =>
          if s.clock ≤ now ∧ ∀ other ∈ s.tasks, task.NotAfter other then some (s.look now top task)
          else none
      | _, _ => none
  | .submitReturns =>
      match s.loop with
      | .submitting task now => some {
          s with loop := if task.Periodic then .relock task now else .testRunning,
                 log := s.log ++ [.submitted task now] }
      | _ => none
  | .submitThrows =>
      match s.loop with
      | .submitting _ _ => some { s with loop := .threw, terminated := true }
      | _ => none
  | .wake => some s.notify
  | .timeout =>
      match s.loop with
      | .timedWaiting deadline =>
          if deadline ≤ s.clock then some { s with loop := .testRunning } else none
      | _ => none

/-- A scheduler just constructed. -/
def new (m : Nat) (φ : Type) (now : Int) : State m φ where
  tasks := []
  nextId := 1
  running := false
  loop := .absent
  clock := now
  clients := fun _ => .idle
  terminated := false
  log := []

end TaskScheduler
end NexusTask
