import Mathlib.Data.Fintype.Basic
import Mathlib.Logic.Function.Iterate

/-!
# `Task`

The status machine of `task.hpp`: a status, a counter of unfinished dependencies, three flags and
the number of attempts. Clock readings are nanosecond counts; a timeout is a microsecond count and
0 means none. A task's name, category and annotations are read by no operation modelled here.
-/

set_option autoImplicit false

namespace NexusTask

abbrev TaskId := Nat

inductive TaskStatus
  | pending | ready | running | completed | failed | cancelled
  deriving DecidableEq, Repr

inductive TaskPriority
  | low | normal | high | critical
  deriving DecidableEq, Repr

instance : Fintype TaskPriority where
  elems := {.low, .normal, .high, .critical}
  complete p := by cases p <;> simp

structure TaskOptions where
  priority : TaskPriority := .normal
  maxRetries : Nat := 0
  timeout : Int := 0
  deadline : Option Int := none
  deriving DecidableEq, Repr

/-- `callback` says whether the callback the task carries is the one `submit_async` wraps around a
promise. -/
structure Task where
  id : TaskId
  status : TaskStatus := .pending
  dependencies : List TaskId := []
  dependents : List TaskId := []
  dependenciesCount : Int := 0
  options : TaskOptions := {}
  cancelled : Bool := false
  enqueued : Bool := false
  attempts : Nat := 0
  createdTime : Int := 0
  startTime : Option Int := none
  endTime : Option Int := none
  wrapsPromise : Bool := false
  deriving DecidableEq, Repr

namespace TaskStatus

/-- The statuses `all_completed` accepts. -/
def isTerminal : TaskStatus → Bool
  | .completed | .failed | .cancelled => true
  | .pending | .ready | .running => false

/-- The statuses `is_ready` accepts. -/
def isWaiting : TaskStatus → Bool
  | .pending | .ready => true
  | .running | .completed | .failed | .cancelled => false

theorem not_waiting_of_terminal {st : TaskStatus} (h : st.isTerminal = true) :
    st.isWaiting = false := by
  cases st <;> simp_all [isWaiting, isTerminal]

theorem not_terminal_of_waiting {st : TaskStatus} (h : st.isWaiting = true) :
    st.isTerminal = false := by
  by_contra hterminal
  have hbegun := not_waiting_of_terminal (Bool.eq_true_of_not_eq_false hterminal)
  exact absurd (hbegun.symm.trans h) (by simp)

end TaskStatus

namespace Task

/-- The half of `add_dependency` on the dependent's side. -/
def dependOn (t : Task) (dependency : TaskId) : Task :=
  { t with dependencies := t.dependencies ++ [dependency],
           dependenciesCount := t.dependenciesCount + 1 }

/-- The half of `add_dependency` on the dependency's side. -/
def addDependent (t : Task) (dependent : TaskId) : Task :=
  { t with dependents := t.dependents ++ [dependent] }

def notifyDependencyCompleted (t : Task) : Task :=
  let remaining := t.dependenciesCount - 1
  { t with dependenciesCount := remaining,
           status := if remaining = 0 then .ready else t.status }

def isReady (t : Task) : Bool :=
  t.dependenciesCount == 0 && t.status.isWaiting && !t.enqueued

/-- The compare-exchange of `try_mark_enqueued`: whether it succeeded, and the task after it. -/
def tryMarkEnqueued (t : Task) : Bool × Task :=
  if t.enqueued then (false, t) else (true, { t with enqueued := true })

@[simp] theorem tryMarkEnqueued_fst (t : Task) : t.tryMarkEnqueued.1 = !t.enqueued := by
  unfold tryMarkEnqueued; split <;> simp_all

/-- Whoever wins, the flag is set afterwards. -/
@[simp] theorem tryMarkEnqueued_snd (t : Task) :
    t.tryMarkEnqueued.2 = { t with enqueued := true } := by
  unfold tryMarkEnqueued
  split
  next h => cases t; simp_all
  next => rfl

def clearEnqueuedFlag (t : Task) : Task := { t with enqueued := false }

/-- The part of `can_retry` after the test of `cancelled_`: `attempts_` counts executions, so
`attempts_ - 1` retries have been used. -/
def retriesLeft (t : Task) : Bool :=
  if t.options.maxRetries = 0 then false
  else
    let retriesUsed := if t.attempts > 0 then t.attempts - 1 else 0
    retriesUsed < t.options.maxRetries

def canRetry (t : Task) : Bool := if t.cancelled then false else t.retriesLeft

theorem canRetry_of_uncancelled {t : Task} (h : t.cancelled = false) :
    t.canRetry = t.retriesLeft := by
  simp [canRetry, h]

/-- The last execution has ended in Completed, or in Failed with no retry left. -/
def Finished (t : Task) : Prop := t.status = .completed ∨ t.status = .failed ∧ t.canRetry = false

instance (t : Task) : Decidable t.Finished :=
  inferInstanceAs (Decidable (t.status = .completed ∨ t.status = .failed ∧ t.canRetry = false))

/-- `deadline_passed`, at clock reading `now`. -/
def deadlinePassed (t : Task) (now : Int) : Bool :=
  match t.options.deadline with
  | none => false
  | some deadline => now > deadline

/-- Whether an execution that started at `start_time_` and finished at `finished` overran the
configured timeout. -/
def overran (t : Task) (finished : Int) : Bool :=
  t.options.timeout > 0 && finished - t.startTime.getD 0 > 1000 * t.options.timeout

/-- `execution_time`, in microseconds. -/
def executionTime (t : Task) : Int :=
  match t.endTime, t.startTime with
  | some finished, some started => (finished - started).tdiv 1000
  | _, _ => 0

@[simp] theorem isReady_iff (t : Task) :
    t.isReady = true ↔ t.dependenciesCount = 0 ∧ t.status.isWaiting = true ∧ t.enqueued = false := by
  simp [isReady, and_assoc]

namespace Finished

variable {k k' : Task}

theorem not_waiting (h : k.Finished) : k.status.isWaiting = false := by
  rcases h with hs | ⟨hs, _⟩ <;> rw [hs] <;> rfl

theorem congr (h : k.Finished) (hs : k'.status = k.status) (hr : k'.canRetry = k.canRetry) :
    k'.Finished := by
  unfold Finished
  rw [hs, hr]
  exact h

end Finished

/-- Two states of a task with the same edges and the same counter. -/
structure SameEdges (t u : Task) : Prop where
  dependencies : t.dependencies = u.dependencies
  dependents : t.dependents = u.dependents
  count : t.dependenciesCount = u.dependenciesCount

/-! ## Repeated notifications -/

section
variable (t : Task) (k : Nat)

/-- A notification touches the counter and the status only. -/
theorem notify_frame {β : Type} (f : Task → β)
    (hf : ∀ u count status, f { u with dependenciesCount := count, status := status } = f u) :
    f (notifyDependencyCompleted^[k] t) = f t := by
  induction k with
  | zero => rfl
  | succ k ih =>
    rw [Function.iterate_succ_apply', ← ih]
    exact hf _ _ _

@[simp] theorem notify_dependents :
    (notifyDependencyCompleted^[k] t).dependents = t.dependents :=
  notify_frame t k (·.dependents) fun _ _ _ => rfl

@[simp] theorem notify_dependencies :
    (notifyDependencyCompleted^[k] t).dependencies = t.dependencies :=
  notify_frame t k (·.dependencies) fun _ _ _ => rfl

@[simp] theorem notify_cancelled : (notifyDependencyCompleted^[k] t).cancelled = t.cancelled :=
  notify_frame t k (·.cancelled) fun _ _ _ => rfl

@[simp] theorem notify_enqueued : (notifyDependencyCompleted^[k] t).enqueued = t.enqueued :=
  notify_frame t k (·.enqueued) fun _ _ _ => rfl

@[simp] theorem notify_wrapsPromise :
    (notifyDependencyCompleted^[k] t).wrapsPromise = t.wrapsPromise :=
  notify_frame t k (·.wrapsPromise) fun _ _ _ => rfl

@[simp] theorem notify_canRetry : (notifyDependencyCompleted^[k] t).canRetry = t.canRetry :=
  notify_frame t k (·.canRetry) fun _ _ _ => rfl

@[simp] theorem notify_dependenciesCount :
    (notifyDependencyCompleted^[k] t).dependenciesCount = t.dependenciesCount - k := by
  induction k with
  | zero => simp
  | succ k ih =>
    rw [Function.iterate_succ_apply']
    show (notifyDependencyCompleted^[k] t).dependenciesCount - 1 = _
    omega

/-- Only the notification that brings the counter to 0 changes the status, and it stores Ready. -/
theorem notify_status_cases :
    (notifyDependencyCompleted^[k] t).status = t.status ∨
      (0 < t.dependenciesCount ∧ (notifyDependencyCompleted^[k] t).status = .ready) := by
  induction k with
  | zero => exact .inl rfl
  | succ k ih =>
    have hcount := notify_dependenciesCount t k
    rw [Function.iterate_succ_apply']
    by_cases hzero : (notifyDependencyCompleted^[k] t).dependenciesCount - 1 = 0
    · exact .inr ⟨by omega, if_pos hzero⟩
    · have hsame : (notifyDependencyCompleted (notifyDependencyCompleted^[k] t)).status
          = (notifyDependencyCompleted^[k] t).status := if_neg hzero
      rw [hsame]
      exact ih

/-- The status stays if the counter does not come to 0. -/
theorem notify_status_of_short (h : ¬ (0 < t.dependenciesCount ∧ t.dependenciesCount ≤ k)) :
    (notifyDependencyCompleted^[k] t).status = t.status := by
  induction k with
  | zero => rfl
  | succ k ih =>
    have hcount := notify_dependenciesCount t k
    rw [Function.iterate_succ_apply', ← ih (by omega)]
    exact if_neg (by push_cast at h; omega)

end
end Task
end NexusTask
