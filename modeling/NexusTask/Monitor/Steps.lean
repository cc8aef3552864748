import NexusTask.Lib.Run
import NexusTask.Lib.Tally
import NexusTask.Lib.Threads
import NexusTask.Monitor

/-!
# `PerformanceMonitor`, one atomic operation at a time

Any number of threads call `record_start`, `record_completion`, `record_failure` and `reset`, and
every `fetch_add`, `fetch_sub`, load, store and compare-exchange is a step of its own. A
`compare_exchange_weak` may fail although it finds what it expects; either way a failure leaves what
it found in the expected value, and the loop looks again.

A completion or a failure is only recorded for an execution whose `record_start` has counted it.
`unpaired` is how many of these there are that none of the two was called for yet.
-/

set_option autoImplicit false

namespace NexusTask
namespace Monitor

open Transition

/-- The counters, in the order in which `reset` stores into them. -/
inductive Counter
  | tasksSubmitted | tasksCompleted | tasksFailed | tasksRetried | tasksCancelled
  | totalExecutionTime | maxExecutionTime | minExecutionTime | queueWaitTime
  | inflightTasks | peakInflight
  deriving DecidableEq

/-- A store of `reset`. -/
def Counter.clear (m : Metrics) : Counter → Metrics
  | .tasksSubmitted => { m with tasksSubmitted := 0 }
  | .tasksCompleted => { m with tasksCompleted := 0 }
  | .tasksFailed => { m with tasksFailed := 0 }
  | .tasksRetried => { m with tasksRetried := 0 }
  | .tasksCancelled => { m with tasksCancelled := 0 }
  | .totalExecutionTime => { m with totalExecutionTime := 0 }
  | .maxExecutionTime => { m with maxExecutionTime := 0 }
  | .minExecutionTime => { m with minExecutionTime := 2 ^ 64 - 1 }
  | .queueWaitTime => { m with queueWaitTime := 0 }
  | .inflightTasks => { m with inflightTasks := 0 }
  | .peakInflight => { m with peakInflight := 0 }

/-- The store that follows. -/
def Counter.next : Counter → Option Counter
  | .tasksSubmitted => some .tasksCompleted
  | .tasksCompleted => some .tasksFailed
  | .tasksFailed => some .tasksRetried
  | .tasksRetried => some .tasksCancelled
  | .tasksCancelled => some .totalExecutionTime
  | .totalExecutionTime => some .maxExecutionTime
  | .maxExecutionTime => some .minExecutionTime
  | .minExecutionTime => some .queueWaitTime
  | .queueWaitTime => some .inflightTasks
  | .inflightTasks => some .peakInflight
  | .peakInflight => none

/-- What a thread is in the middle of, named after the atomic operation that comes next. -/
inductive Frame
  | idle
  | startAdd
  | peakLoad (inflight : Nat)
  | peakExchange (inflight peak : Nat)
  | totalAdd (time : Int)
  | completedAdd (time : Int)
  | completionSub (time : Int)
  | maxLoad (time : Nat)
  | maxExchange (time currentMax : Nat)
  | minLoad (time : Nat)
  | minExchange (time currentMin : Nat)
  | failedAdd
  | failureSub
  | reset (store : Counter)
  deriving DecidableEq

/-- `while (inflight > peak)`. -/
def Frame.peakLoop (inflight peak : Nat) : Frame :=
  if inflight > peak then .peakExchange inflight peak else .idle

/-- `while (exec_time_us > current_max)`, and what comes after it. -/
def Frame.maxLoop (time currentMax : Nat) : Frame :=
  if time > currentMax then .maxExchange time currentMax else .minLoad time

/-- `while (exec_time_us < current_min)`. -/
def Frame.minLoop (time currentMin : Nat) : Frame :=
  if time < currentMin then .minExchange time currentMin else .idle

/-- One atomic operation. -/
def Frame.next (m : Metrics) (spurious : Bool) : Frame → Option (Metrics × Frame)
  | .idle => none
  | .startAdd =>
      let inflight := u64 (m.inflightTasks + 1)
      some ({ m with inflightTasks := inflight }, .peakLoad inflight)
  | .peakLoad inflight => some (m, .peakLoop inflight m.peakInflight)
  | .peakExchange inflight peak =>
      if m.peakInflight = peak ∧ spurious = false then
        some ({ m with peakInflight := inflight }, .idle)
      else some (m, .peakLoop inflight m.peakInflight)
  | .totalAdd time =>
      some ({ m with totalExecutionTime := u64 (m.totalExecutionTime + time) }, .completedAdd time)
  | .completedAdd time =>
      some ({ m with tasksCompleted := u64 (m.tasksCompleted + 1) }, .completionSub time)
  | .completionSub time =>
      some ({ m with inflightTasks := u64 (m.inflightTasks - 1) }, .maxLoad (u64 time))
  | .maxLoad time => some (m, .maxLoop time m.maxExecutionTime)
  | .maxExchange time currentMax =>
      if m.maxExecutionTime = currentMax ∧ spurious = false then
        some ({ m with maxExecutionTime := time }, .minLoad time)
      else some (m, .maxLoop time m.maxExecutionTime)
  | .minLoad time => some (m, .minLoop time m.minExecutionTime)
  | .minExchange time currentMin =>
      if m.minExecutionTime = currentMin ∧ spurious = false then
        some ({ m with minExecutionTime := time }, .idle)
      else some (m, .minLoop time m.minExecutionTime)
  | .failedAdd => some ({ m with tasksFailed := u64 (m.tasksFailed + 1) }, .failureSub)
  | .failureSub => some ({ m with inflightTasks := u64 (m.inflightTasks - 1) }, .idle)
  | .reset store => some (store.clear m, (store.next.map .reset).getD .idle)

/-- The executions that the operation counts as started. -/
def Frame.started : Frame → Nat
  | .startAdd => 1
  | _ => 0

inductive Call
  | recordStart
  | recordCompletion (time : Int)
  | recordFailure
  | reset
  deriving DecidableEq

/-- `largest` is the largest value `inflight_tasks` has had. -/
structure System (ι : Type) where
  metrics : Metrics := {}
  frames : ι → Frame := fun _ => .idle
  unpaired : Nat := 0
  largest : Nat := 0

inductive Label (ι : Type)
  | call (i : ι) (c : Call)
  | step (i : ι) (spurious : Bool)

variable {ι : Type} [DecidableEq ι]

def System.goto (s : System ι) (i : ι) (frame : Frame) : System ι :=
  { s with frames := Function.update s.frames i frame }

def step (s : System ι) : Label ι → Option (System ι)
  | .call i c =>
      if s.frames i = .idle then
        match c with
        | .recordStart => some (s.goto i .startAdd)
        | .recordCompletion time =>
            if s.unpaired = 0 then none
            else some { s.goto i (if time > 0 then .totalAdd time else .completedAdd time) with
              unpaired := s.unpaired - 1 }
        | .recordFailure =>
            if s.unpaired = 0 then none
            else some { s.goto i .failedAdd with unpaired := s.unpaired - 1 }
        | .reset => some (s.goto i (.reset .tasksSubmitted))
      else none
  | .step i spurious =>
      ((s.frames i).next s.metrics spurious).map fun (metrics, frame) =>
        { s.goto i frame with
          metrics
          unpaired := s.unpaired + (s.frames i).started
          largest := max s.largest metrics.inflightTasks }

/-! ## A call that nobody interrupts -/

/-- The rest of a call, in at most this many operations. -/
def Frame.alone : Nat → Metrics → Frame → Option Metrics
  | _, m, .idle => some m
  | 0, _, _ => none
  | fuel + 1, m, frame => (frame.next m false).bind fun (m', frame') => alone fuel m' frame'

theorem Frame.alone_peakLoop (fuel count : Nat) (m : Metrics) :
    (Frame.peakLoop count m.peakInflight).alone (fuel + 1) m
      = some { m with peakInflight := max m.peakInflight count } := by
  unfold peakLoop
  split
  next h => simp [alone, next, max_eq_right (Nat.le_of_lt h)]
  next h => simp [alone, max_eq_left (Nat.le_of_not_lt h)]

theorem Frame.alone_minLoop (fuel time : Nat) (m : Metrics) :
    (Frame.minLoop time m.minExecutionTime).alone (fuel + 1) m
      = some { m with minExecutionTime := min m.minExecutionTime time } := by
  unfold minLoop
  split
  next h => simp [alone, next, min_eq_right (Nat.le_of_lt h)]
  next h => simp [alone, min_eq_left (Nat.le_of_not_lt h)]

theorem Frame.alone_maxLoop (fuel time : Nat) (m : Metrics) :
    (Frame.maxLoop time m.maxExecutionTime).alone (fuel + 3) m = some (m.updateExtrema time) := by
  unfold maxLoop
  split
  next h =>
    have hmin := alone_minLoop fuel time { m with maxExecutionTime := time }
    simp [alone, next, hmin, Metrics.updateExtrema, max_eq_right (Nat.le_of_lt h)]
  next h =>
    have hmin := alone_minLoop (fuel + 1) time m
    simp [alone, next, hmin, Metrics.updateExtrema, max_eq_left (Nat.le_of_not_lt h)]

/-- Then each of them does what it does in one step in `Monitor.lean`. -/
theorem recordStart_alone (m : Metrics) : Frame.startAdd.alone 3 m = some m.recordStart :=
  Frame.alone_peakLoop 0 _ _

theorem recordCompletion_alone (m : Metrics) (time : Int) :
    (if time > 0 then Frame.totalAdd time else .completedAdd time).alone 7 m
      = some (m.recordCompletion time) := by
  unfold Metrics.recordCompletion
  by_cases h : time > 0
  · rw [if_pos h, if_pos h]
    exact Frame.alone_maxLoop 0 _ _
  · rw [if_neg h, if_neg h]
    exact Frame.alone_maxLoop 1 _ _

theorem recordFailure_alone (m : Metrics) : Frame.failedAdd.alone 2 m = some m.recordFailure := rfl

/-- `reset` leaves the metrics of a monitor just constructed. -/
theorem reset_alone (m : Metrics) : (Frame.reset .tasksSubmitted).alone 11 m = some {} := rfl

/-! ## What a step does to the gauge and its peak -/

/-- The count that a `record_start` has made and not yet compared with the peak for good. -/
def Frame.announces : Frame → Option Nat
  | .peakLoad inflight | .peakExchange inflight _ => some inflight
  | _ => none

/-- The decrement is still to come. -/
def Frame.owes : Frame → Bool
  | .totalAdd _ | .completedAdd _ | .completionSub _ | .failedAdd | .failureSub => true
  | _ => false

def Frame.inStart : Frame → Bool
  | .startAdd | .peakLoad _ | .peakExchange .. => true
  | _ => false

def Frame.inReset : Frame → Bool
  | .reset _ => true
  | _ => false

/-- What a step of thread `i`, which goes to `frame`, can do to `inflight_tasks`, `peak_inflight`
and the executions that are open. -/
inductive Moved (s s' : System ι) (i : ι) (frame : Frame) : Prop
  /-- Nothing. -/
  | aside (inflight : s'.metrics.inflightTasks = s.metrics.inflightTasks)
      (peak : s'.metrics.peakInflight = s.metrics.peakInflight)
      (unpaired : s'.unpaired = s.unpaired) (silent : (s.frames i).announces = none)
      (still : frame.announces = none) (owes : frame.owes = (s.frames i).owes)
  | add (at_add : s.frames i = .startAdd)
      (goes : frame = .peakLoad (u64 (s.metrics.inflightTasks + 1)))
      (inflight : s'.metrics.inflightTasks = u64 (s.metrics.inflightTasks + 1))
      (peak : s'.metrics.peakInflight = s.metrics.peakInflight)
      (unpaired : s'.unpaired = s.unpaired + 1)
  /-- It has looked at the peak and tries, tries again, or is content. -/
  | compare (count : Nat) (announces : (s.frames i).announces = some count)
      (goes : frame = .peakLoop count s.metrics.peakInflight) (metrics : s'.metrics = s.metrics)
      (unpaired : s'.unpaired = s.unpaired)
  | publish (count : Nat) (at_exchange : s.frames i = .peakExchange count s.metrics.peakInflight)
      (goes : frame = .idle) (inflight : s'.metrics.inflightTasks = s.metrics.inflightTasks)
      (peak : s'.metrics.peakInflight = count) (unpaired : s'.unpaired = s.unpaired)
  /-- `record_completion` or `record_failure` is called. -/
  | issue (at_idle : s.frames i = .idle) (owes : frame.owes = true)
      (silent : frame.announces = none) (metrics : s'.metrics = s.metrics)
      (unpaired : s.unpaired = s'.unpaired + 1)
  | subtract (owed : (s.frames i).owes = true) (paid : frame.owes = false)
      (silent : (s.frames i).announces = none) (still : frame.announces = none)
      (inflight : s'.metrics.inflightTasks = u64 (s.metrics.inflightTasks - 1))
      (peak : s'.metrics.peakInflight = s.metrics.peakInflight)
      (unpaired : s'.unpaired = s.unpaired)
  | clearInflight (at_store : s.frames i = .reset .inflightTasks)
      (goes : frame = .reset .peakInflight) (inflight : s'.metrics.inflightTasks = 0)
      (peak : s'.metrics.peakInflight = s.metrics.peakInflight)
      (unpaired : s'.unpaired = s.unpaired)
  | clearPeak (at_store : s.frames i = .reset .peakInflight) (goes : frame = .idle)
      (inflight : s'.metrics.inflightTasks = s.metrics.inflightTasks)
      (peak : s'.metrics.peakInflight = 0) (unpaired : s'.unpaired = s.unpaired)

/-- What is known of a step that takes thread `i` to `frame`. -/
structure Took (s : System ι) (l : Label ι) (s' : System ι) (i : ι) (frame : Frame) : Prop where
  frames : s'.frames = Function.update s.frames i frame
  moved : Moved s s' i frame
  inReset : frame.inReset = true → (s.frames i).inReset = true ∨ l = .call i .reset
  largest : s.metrics.inflightTasks ≤ s.largest →
    s'.largest = max s.largest s'.metrics.inflightTasks

theorem Frame.peakLoop_owes (count peak : Nat) : (Frame.peakLoop count peak).owes = false := by
  unfold peakLoop
  split <;> rfl

theorem Frame.peakLoop_inReset (count peak : Nat) :
    (Frame.peakLoop count peak).inReset = false := by
  unfold peakLoop
  split <;> rfl

/-- The loops of `update_extrema` touch neither the gauge nor its peak. -/
theorem Frame.maxLoop_silent (time currentMax : Nat) :
    (Frame.maxLoop time currentMax).announces = none ∧
      (Frame.maxLoop time currentMax).owes = false ∧
      (Frame.maxLoop time currentMax).inReset = false := by
  unfold maxLoop
  split <;> exact ⟨rfl, rfl, rfl⟩

theorem Frame.minLoop_silent (time currentMin : Nat) :
    (Frame.minLoop time currentMin).announces = none ∧
      (Frame.minLoop time currentMin).owes = false ∧
      (Frame.minLoop time currentMin).inReset = false := by
  unfold minLoop
  split <;> exact ⟨rfl, rfl, rfl⟩

/-- The operations that touch neither of the two. -/
def Frame.offGauge : Frame → Bool
  | .totalAdd _ | .completedAdd _ | .maxLoad _ | .maxExchange .. | .minLoad _ | .minExchange ..
  | .failedAdd => true
  | _ => false

theorem Frame.next_offGauge {m m' : Metrics} {spurious : Bool} {frame frame' : Frame}
    (hoff : frame.offGauge = true) (h : frame.next m spurious = some (m', frame')) :
    m'.inflightTasks = m.inflightTasks ∧ m'.peakInflight = m.peakInflight ∧
      frame.announces = none ∧ frame'.announces = none ∧ frame'.owes = frame.owes ∧
      frame'.inReset = false := by
  cases frame with
  | totalAdd | completedAdd | failedAdd =>
    obtain ⟨rfl, rfl⟩ := Prod.mk.inj (Option.some.inj h)
    exact ⟨rfl, rfl, rfl, rfl, rfl, rfl⟩
  | maxLoad time =>
    obtain ⟨rfl, rfl⟩ := Prod.mk.inj (Option.some.inj h)
    exact ⟨rfl, rfl, rfl, maxLoop_silent ..⟩
  | minLoad time =>
    obtain ⟨rfl, rfl⟩ := Prod.mk.inj (Option.some.inj h)
    exact ⟨rfl, rfl, rfl, minLoop_silent ..⟩
  | maxExchange time currentMax =>
    simp only [next] at h
    split at h
    · obtain ⟨rfl, rfl⟩ := Prod.mk.inj (Option.some.inj h)
      exact ⟨rfl, rfl, rfl, rfl, rfl, rfl⟩
    · obtain ⟨rfl, rfl⟩ := Prod.mk.inj (Option.some.inj h)
      exact ⟨rfl, rfl, rfl, maxLoop_silent ..⟩
  | minExchange time currentMin =>
    simp only [next] at h
    split at h
    · obtain ⟨rfl, rfl⟩ := Prod.mk.inj (Option.some.inj h)
      exact ⟨rfl, rfl, rfl, rfl, rfl, rfl⟩
    · obtain ⟨rfl, rfl⟩ := Prod.mk.inj (Option.some.inj h)
      exact ⟨rfl, rfl, rfl, minLoop_silent ..⟩
  | _ => exact absurd hoff (by simp [offGauge])

/-- Only a call of `reset` stores. -/
theorem Frame.next_inReset {m m' : Metrics} {spurious : Bool} {frame frame' : Frame}
    (h : frame.next m spurious = some (m', frame')) (hreset : frame'.inReset = true) :
    frame.inReset = true := by
  cases frame with
  | idle => exact absurd h (by simp [next])
  | reset store => rfl
  | startAdd | completionSub | failureSub =>
    obtain ⟨rfl, rfl⟩ := Prod.mk.inj (Option.some.inj h)
    exact absurd hreset (by simp [inReset])
  | peakLoad count =>
    obtain ⟨rfl, rfl⟩ := Prod.mk.inj (Option.some.inj h)
    exact absurd hreset (by simp [peakLoop_inReset])
  | peakExchange count peak =>
    simp only [next] at h
    split at h
    · obtain ⟨rfl, rfl⟩ := Prod.mk.inj (Option.some.inj h)
      exact absurd hreset (by simp [inReset])
    · obtain ⟨rfl, rfl⟩ := Prod.mk.inj (Option.some.inj h)
      exact absurd hreset (by simp [peakLoop_inReset])
  | _ =>
    have hoff := (next_offGauge rfl h).2.2.2.2.2
    exact absurd (hoff.symm.trans hreset) (by simp)

theorem took_call {s s' : System ι} {i : ι} {c : Call} (h : step s (.call i c) = some s') :
    ∃ frame, Took s (.call i c) s' i frame := by
  by_cases hidle : s.frames i = .idle
  · have hlargest : s.metrics.inflightTasks ≤ s.largest →
        s.largest = max s.largest s.metrics.inflightTasks := fun hle => (max_eq_left hle).symm
    have hsilent : (s.frames i).announces = none := by rw [hidle]; rfl
    have hpaid : (s.frames i).owes = false := by rw [hidle]; rfl
    have hpred : ¬ s.unpaired = 0 → s.unpaired = s.unpaired - 1 + 1 := fun hne =>
      (Nat.succ_pred_eq_of_ne_zero hne).symm
    simp only [step, if_pos hidle] at h
    cases c with
    | recordStart =>
      obtain rfl := Option.some.inj h
      exact ⟨_, rfl, .aside rfl rfl rfl hsilent rfl hpaid.symm,
        fun hreset => absurd hreset (by simp [Frame.inReset]), hlargest⟩
    | recordCompletion time =>
      dsimp only at h
      split at h
      · exact absurd h (by simp)
      next hopen =>
        obtain rfl := Option.some.inj h
        refine ⟨_, rfl, .issue hidle ?_ ?_ rfl (hpred hopen), fun hreset => absurd hreset ?_,
          hlargest⟩ <;> split <;> simp [Frame.owes, Frame.announces, Frame.inReset]
    | recordFailure =>
      dsimp only at h
      split at h
      · exact absurd h (by simp)
      next hopen =>
        obtain rfl := Option.some.inj h
        exact ⟨_, rfl, .issue hidle rfl rfl rfl (hpred hopen),
          fun hreset => absurd hreset (by simp [Frame.inReset]), hlargest⟩
    | reset =>
      obtain rfl := Option.some.inj h
      exact ⟨_, rfl, .aside rfl rfl rfl hsilent rfl hpaid.symm, fun _ => .inr rfl, hlargest⟩
  · simp only [step, if_neg hidle] at h
    exact absurd h (by simp)

/-- A store of `reset` that is one of neither. -/
theorem Counter.clear_other {store : Counter} (hinflight : store ≠ .inflightTasks)
    (hpeak : store ≠ .peakInflight) (m : Metrics) :
    (store.clear m).inflightTasks = m.inflightTasks ∧
      (store.clear m).peakInflight = m.peakInflight ∧ store.next ≠ none := by
  cases store <;> simp_all [clear, next]

theorem took_step {s s' : System ι} {i : ι} {spurious : Bool}
    (h : step s (.step i spurious) = some s') :
    ∃ frame, Took s (.step i spurious) s' i frame := by
  obtain ⟨⟨m, frame⟩, hnext, rfl⟩ := Option.map_eq_some_iff.mp h
  refine ⟨frame, rfl, ?_, ?_, fun _ => rfl⟩
  · cases hframe : s.frames i with
    | idle => exact absurd (hframe ▸ hnext) (by simp [Frame.next])
    | startAdd =>
      obtain ⟨rfl, rfl⟩ := Prod.mk.inj (Option.some.inj (hframe ▸ hnext))
      exact .add hframe rfl rfl rfl rfl
    | peakLoad count =>
      obtain ⟨rfl, rfl⟩ := Prod.mk.inj (Option.some.inj (hframe ▸ hnext))
      exact .compare count (by rw [hframe]; rfl) rfl rfl rfl
    | peakExchange count peak =>
      rw [hframe] at hnext
      simp only [Frame.next] at hnext
      split at hnext
      next hmeets =>
        obtain ⟨rfl, rfl⟩ := Prod.mk.inj (Option.some.inj hnext)
        exact .publish count (by rw [hframe, hmeets.1]) rfl rfl rfl rfl
      next =>
        obtain ⟨rfl, rfl⟩ := Prod.mk.inj (Option.some.inj hnext)
        exact .compare count (by rw [hframe]; rfl) rfl rfl rfl
    | completionSub | failureSub =>
      obtain ⟨rfl, rfl⟩ := Prod.mk.inj (Option.some.inj (hframe ▸ hnext))
      exact .subtract (by rw [hframe]; rfl) rfl (by rw [hframe]; rfl) rfl rfl rfl
        rfl
    | reset store =>
      obtain ⟨rfl, rfl⟩ := Prod.mk.inj (Option.some.inj (hframe ▸ hnext))
      by_cases hinflight : store = .inflightTasks
      · subst hinflight
        exact .clearInflight hframe rfl rfl rfl rfl
      by_cases hpeak : store = .peakInflight
      · subst hpeak
        exact .clearPeak hframe rfl rfl rfl rfl
      obtain ⟨hsame₁, hsame₂, hmore⟩ := Counter.clear_other hinflight hpeak s.metrics
      obtain ⟨after, hafter⟩ := Option.ne_none_iff_exists'.mp hmore
      exact .aside hsame₁ hsame₂ rfl (by rw [hframe]; rfl) (by rw [hafter]; rfl)
        (by rw [hafter, hframe]; rfl)
    | _ =>
      rw [hframe] at hnext
      obtain ⟨hinflight, hpeak, hsilent, hstill, howes, _⟩ := Frame.next_offGauge rfl hnext
      exact .aside hinflight hpeak rfl (hframe ▸ hsilent) hstill
        (hframe ▸ howes)
  · exact fun hreset => .inl (Frame.next_inReset hnext hreset)

theorem exists_took {s s' : System ι} {l : Label ι} (h : step s l = some s') :
    ∃ i frame, Took s l s' i frame := by
  cases l with
  | call i c => exact ⟨i, took_call h⟩
  | step i spurious => exact ⟨i, took_step h⟩

end Monitor
end NexusTask
