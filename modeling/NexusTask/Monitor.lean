import Mathlib.Data.Int.ModEq

/-!
# `PerformanceMonitor`

The counters of `performance_monitor.hpp`. They are `uint64_t`, so every sum and difference is
taken modulo `2 ^ 64`: a decrement of 0 wraps to `2 ^ 64 - 1`. Each `record_*` call is one step. The
compare-exchange loops in them only ever raise a maximum or lower a minimum.
-/

set_option autoImplicit false

namespace NexusTask

/-- `static_cast<uint64_t>`. -/
def u64 (i : Int) : Nat := (i % 2 ^ 64).toNat

theorem u64_lt (i : Int) : u64 i < 2 ^ 64 := by unfold u64; omega

theorem u64_of_lt {i : Nat} (h : i < 2 ^ 64) : u64 i = i := by unfold u64; omega

structure Metrics where
  tasksSubmitted : Nat := 0
  tasksCompleted : Nat := 0
  tasksFailed : Nat := 0
  tasksRetried : Nat := 0
  tasksCancelled : Nat := 0
  totalExecutionTime : Nat := 0
  maxExecutionTime : Nat := 0
  minExecutionTime : Nat := 2 ^ 64 - 1
  queueWaitTime : Nat := 0
  inflightTasks : Nat := 0
  peakInflight : Nat := 0
  deriving DecidableEq, Repr

namespace Metrics

def recordSubmission (m : Metrics) : Metrics :=
  { m with tasksSubmitted := u64 (m.tasksSubmitted + 1) }

def recordStart (m : Metrics) : Metrics :=
  let inflight := u64 (m.inflightTasks + 1)
  { m with inflightTasks := inflight, peakInflight := max m.peakInflight inflight }

def updateExtrema (m : Metrics) (time : Nat) : Metrics :=
  { m with maxExecutionTime := max m.maxExecutionTime time,
           minExecutionTime := min m.minExecutionTime time }

def recordCompletion (m : Metrics) (time : Int) : Metrics :=
  let total := if time > 0 then u64 (m.totalExecutionTime + time) else m.totalExecutionTime
  updateExtrema
    { m with totalExecutionTime := total,
             tasksCompleted := u64 (m.tasksCompleted + 1),
             inflightTasks := u64 (m.inflightTasks - 1) }
    (u64 time)

def recordFailure (m : Metrics) : Metrics :=
  { m with tasksFailed := u64 (m.tasksFailed + 1), inflightTasks := u64 (m.inflightTasks - 1) }

def recordRetry (m : Metrics) : Metrics := { m with tasksRetried := u64 (m.tasksRetried + 1) }

def recordCancellation (m : Metrics) : Metrics :=
  { m with tasksCancelled := u64 (m.tasksCancelled + 1) }

def recordQueueWait (m : Metrics) (time : Nat) : Metrics :=
  { m with queueWaitTime := u64 (m.queueWaitTime + time) }

@[simp] theorem recordSubmission_inflight (m : Metrics) :
    m.recordSubmission.inflightTasks = m.inflightTasks := rfl
@[simp] theorem recordStart_inflight (m : Metrics) :
    m.recordStart.inflightTasks = u64 (m.inflightTasks + 1) := rfl
@[simp] theorem recordCompletion_inflight (m : Metrics) (time : Int) :
    (m.recordCompletion time).inflightTasks = u64 (m.inflightTasks - 1) := rfl
@[simp] theorem recordFailure_inflight (m : Metrics) :
    m.recordFailure.inflightTasks = u64 (m.inflightTasks - 1) := rfl
@[simp] theorem recordRetry_inflight (m : Metrics) :
    m.recordRetry.inflightTasks = m.inflightTasks := rfl
@[simp] theorem recordCancellation_inflight (m : Metrics) :
    m.recordCancellation.inflightTasks = m.inflightTasks := rfl
@[simp] theorem recordQueueWait_inflight (m : Metrics) (time : Nat) :
    (m.recordQueueWait time).inflightTasks = m.inflightTasks := rfl

/-! ## Submissions and outcomes -/

/-- The submissions that no final outcome was counted for, as far as the counters tell. -/
def owed (m : Metrics) : Int :=
  m.tasksSubmitted - (m.tasksCompleted + (m.tasksFailed - m.tasksRetried) + m.tasksCancelled)

section
variable (m : Metrics)

theorem recordSubmission_owed : m.recordSubmission.owed ≡ m.owed + 1 [ZMOD 2 ^ 64] := by
  simp only [Int.ModEq, owed, recordSubmission, u64]
  omega

theorem recordCompletion_owed (time : Int) :
    (m.recordCompletion time).owed ≡ m.owed - 1 [ZMOD 2 ^ 64] := by
  simp only [Int.ModEq, owed, recordCompletion, updateExtrema, u64]
  omega

theorem recordFailure_owed : m.recordFailure.owed ≡ m.owed - 1 [ZMOD 2 ^ 64] := by
  simp only [Int.ModEq, owed, recordFailure, u64]
  omega

theorem recordRetry_owed : m.recordRetry.owed ≡ m.owed + 1 [ZMOD 2 ^ 64] := by
  simp only [Int.ModEq, owed, recordRetry, u64]
  omega

theorem recordCancellation_owed : m.recordCancellation.owed ≡ m.owed - 1 [ZMOD 2 ^ 64] := by
  simp only [Int.ModEq, owed, recordCancellation, u64]
  omega

/-- With nothing owed every submission has one outcome. -/
theorem submitted_of_owed (hlt : m.tasksSubmitted < 2 ^ 64) (h : m.owed ≡ 0 [ZMOD 2 ^ 64]) :
    m.tasksSubmitted =
      u64 (m.tasksCompleted + (m.tasksFailed - m.tasksRetried) + m.tasksCancelled) := by
  simp only [Int.ModEq, owed] at h
  unfold u64
  omega

end
end Metrics
end NexusTask
