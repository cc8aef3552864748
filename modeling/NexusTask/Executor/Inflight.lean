import NexusTask.Executor.Single

/-!
# Executions under way

`inflight_tasks` goes up in `on_start` and down in `record_completion` and `record_failure`. The
`catch` of `worker_loop` covers `on_success` as well: an exception that leaves it, the user's
callback's or `set_value`'s, brings an execution to `on_failure` whose completion has been recorded,
and the counter is decremented twice for it.

`Line.recorded` is the number of outcomes recorded for the execution of a worker at a line. As long
as no exception leaves `on_success` it is the number the history has, and from that the counter is
read off.
-/

set_option autoImplicit false

namespace NexusTask
namespace Executor

open Transition

variable {m n : Nat}

/-- The executions whose start is recorded and whose outcome is not. -/
def Recorder.pending (r : Recorder n) : Nat :=
  (Finset.univ.filter fun w => r.outcomes w = some 0).card

/-- What the monitor should say of the executions. -/
structure Accounted (s : State m n) : Prop where
  inflight : s.recorder.metrics.inflightTasks = s.recorder.pending
  once : ∀ w k, s.recorder.outcomes w = some k → k ≤ 1
  concluded : ∀ k ∈ s.recorder.concluded, k = 1
  /-- The next `record_completion` or `record_failure` does not wrap. -/
  positive : ∀ w line u, s.workers w = .busy line u → line = .onSuccess ∨ line = .onFailure →
    0 < s.recorder.metrics.inflightTasks

/-- No exception leaves `on_success`. -/
def Contained (s : State m n) : Action m n → Prop
  | .worker w _ ok =>
    match s.workers w with
    | .busy line u => s.raises u ok line = false
    | .idle => True
  | _ => True

instance (s : State m n) : (a : Action m n) → Decidable (Contained s a)
  | .worker w _ ok =>
    match h : s.workers w with
    | .busy line u => decidable_of_iff (s.raises u ok line = false) (by simp only [Contained, h])
    | .idle => .isTrue (by simp only [Contained, h])
  | .call _ _ | .client _ _ | .poll _ | .scheduler | .take _ _ => .isTrue trivial

/-! ## The recorder -/

namespace Recorder

variable {r : Recorder n} {w : Fin n}

theorem pending_le : r.pending ≤ n := by
  have hle := Finset.card_le_univ (Finset.univ.filter fun w => r.outcomes w = some 0)
  rwa [Fintype.card_fin] at hle

theorem pending_pos (h : r.outcomes w = some 0) : 0 < r.pending :=
  Finset.card_pos.mpr ⟨w, Finset.mem_filter.mpr ⟨Finset.mem_univ w, h⟩⟩

/-- The round of worker `w` gets another number of recorded outcomes. -/
theorem pending_update {o : Option Nat} {r' : Recorder n}
    (h : r'.outcomes = Function.update r.outcomes w o) :
    r'.pending + (if r.outcomes w = some 0 then 1 else 0)
      = r.pending + (if o = some 0 then 1 else 0) := by
  unfold pending
  rw [h]
  exact card_filter_update (· = some 0) r.outcomes w o

theorem start_inflight (created now : Int) :
    (r.start w created now).metrics.inflightTasks = u64 (r.metrics.inflightTasks + 1) := by
  simp only [start]
  split <;> rfl

theorem start_owed (created now : Int) :
    (r.start w created now).metrics.owed = r.metrics.owed := by
  simp only [start]
  split <;> rfl

end Recorder

/-- What a client records is no execution's start or outcome. -/
theorem ClientPc.recorder_quiet {s : State m n} (pc : ClientPc) :
    (pc.recorder s).metrics.inflightTasks = s.recorder.metrics.inflightTasks ∧
      (pc.recorder s).outcomes = s.recorder.outcomes ∧
      (pc.recorder s).concluded = s.recorder.concluded := by
  cases pc <;> exact ⟨rfl, rfl, rfl⟩

/-! ## Outcomes by line -/

/-- The number of outcomes recorded for an execution. -/
@[simp] def Line.recorded : Line → Option Nat
  | .onStart => none
  | .loadCancelled | .storeCancelled | .storeRunning | .countAttempt | .testDeadline
  | .callFunction | .inFunction | .storeFailed | .catchAll | .storeCompleted | .onSuccess
  | .onFailure => some 0
  | .callback | .setCallbackValue | .fulfillPromise | .setValue | .notify | .clear
  | .testCancelled | .testRetries | .recordRetry | .resetStatus | .resetFlag | .remark | .resubmit
  | .failPromise | .setException | .terminated => some 1

@[simp] def WorkerPc.recorded : WorkerPc → Option Nat
  | .idle => none
  | .busy line _ => line.recorded

theorem Line.recorded_le {line : Line} {k : Nat} (h : line.recorded = some k) : k ≤ 1 := by
  cases line <;> simp_all <;> omega

/-- The first line records the start, two lines an outcome each, and no other line anything. -/
theorem LineStep.recorded {s : State m n} {u : TaskId} {now : Int} {ok : Bool} {k : Task}
    {line line' : Line} (h : LineStep s u now ok line line' k)
    (hcontained : s.raises u ok line = false) :
    line'.recorded = if line = .onStart then some 0
      else if line = .onSuccess ∨ line = .onFailure then some 1 else line.recorded := by
  cases h with
  | callbackRaised hok => exact absurd hcontained (by simp [State.raises, hok])
  | callbackValueRaised hs => exact absurd hcontained (by simp [State.raises, hs])
  | valueRaised hs => exact absurd hcontained (by simp [State.raises, hs])
  | _ => rfl

structure Paired (s : State m n) : Prop where
  inflight : s.recorder.metrics.inflightTasks = s.recorder.pending
  workers : ∀ w, s.recorder.outcomes w = (s.workers w).recorded
  concluded : ∀ k ∈ s.recorder.concluded, k = 1

theorem paired_start : Paired (start m n) where
  inflight := by simp [start, Recorder.pending]
  workers w := rfl
  concluded k hk := absurd hk (by simp [start])

namespace Paired

variable {s t : State m n} {a : Action m n} {u : TaskId} {w : Fin n} {line line' : Line}

theorem accounted (h : Paired s) : Accounted s where
  inflight := h.inflight
  once w k hk := by
    rw [h.workers w] at hk
    generalize s.workers w = pc at hk
    cases pc with
    | idle => exact absurd hk (by simp)
    | busy line u => exact Line.recorded_le hk
  concluded := h.concluded
  positive w line u old hline := by
    -- The worker's own execution is one of those without an outcome.
    rw [h.inflight]
    refine Recorder.pending_pos (w := w) ?_
    rw [h.workers w, old]
    rcases hline with rfl | rfl <;> rfl

/-- A step that records neither a start nor an outcome, of a worker whose line does not change the
number of outcomes either. -/
theorem quiet (h : Paired s) {r : Recorder n} {workers : Fin n → WorkerPc}
    (hr : t.recorder = r) (hw : t.workers = workers)
    (hinflight : r.metrics.inflightTasks = s.recorder.metrics.inflightTasks)
    (houtcomes : r.outcomes = s.recorder.outcomes) (hconcluded : r.concluded = s.recorder.concluded)
    (hworkers : ∀ w, (workers w).recorded = (s.workers w).recorded) : Paired t := by
  subst hr hw
  refine ⟨?_, fun w => ?_, fun k hk => h.concluded k (hconcluded ▸ hk)⟩
  · rw [hinflight, h.inflight]
    unfold Recorder.pending
    rw [houtcomes]
  · rw [houtcomes, h.workers w, hworkers w]

/-- The workers' numbers, after a step of one of them. -/
theorem workers_update (h : Paired s) {o : Option Nat} {pc : WorkerPc}
    (hr : t.recorder.outcomes = Function.update s.recorder.outcomes w o)
    (hw : t.workers = Function.update s.workers w pc) (ho : o = pc.recorded) (v : Fin n) :
    t.recorder.outcomes v = (t.workers v).recorded := by
  rw [hr, hw]
  by_cases hv : v = w
  · subst hv
    rw [Function.update_self, Function.update_self, ho]
  · rw [Function.update_of_ne hv, Function.update_of_ne hv, h.workers v]

/-- A worker's round ends with its outcome recorded. -/
theorem conclude (h : Paired s) (old : s.workers w = .busy line u) (hline : line.recorded = some 1)
    (hr : t.recorder = s.recorder.conclude w)
    (hw : t.workers = Function.update s.workers w .idle) : Paired t := by
  have hone : s.recorder.outcomes w = some 1 := by rw [h.workers w, old]; exact hline
  have houtcomes : t.recorder.outcomes = Function.update s.recorder.outcomes w none := by
    rw [hr]
    rfl
  refine ⟨?_, h.workers_update houtcomes hw rfl, fun k hk => ?_⟩
  · have hpending := Recorder.pending_update houtcomes
    rw [hone, if_neg (by simp), if_neg (by simp)] at hpending
    have hsame : t.recorder.metrics = s.recorder.metrics := by rw [hr]; rfl
    rw [hsame, h.inflight]
    exact hpending.symm
  · have hconcluded : t.recorder.concluded = s.recorder.concluded ++ [1] := by
      rw [hr]
      show s.recorder.concluded ++ (s.recorder.outcomes w).toList = _
      rw [hone]
      rfl
    rw [hconcluded] at hk
    rcases List.mem_append.mp hk with hold | hnew
    · exact h.concluded k hold
    · exact List.mem_singleton.mp hnew

/-- A worker starts an execution. -/
theorem started (h : Paired s) (hn : n < 2 ^ 64) {created now : Int}
    (old : s.workers w = .busy .onStart u) (hr : t.recorder = s.recorder.start w created now)
    (hw : t.workers = Function.update s.workers w (.busy .loadCancelled u)) : Paired t := by
  have hnone : s.recorder.outcomes w = none := by rw [h.workers w, old]; rfl
  have houtcomes : t.recorder.outcomes = Function.update s.recorder.outcomes w (some 0) := by
    rw [hr]
    rfl
  have hconcluded : t.recorder.concluded = s.recorder.concluded := by rw [hr]; rfl
  refine ⟨?_, h.workers_update houtcomes hw rfl, fun k hk => h.concluded k (hconcluded ▸ hk)⟩
  have hpending := Recorder.pending_update houtcomes
  rw [hnone, if_neg (by simp), if_pos rfl, Nat.add_zero] at hpending
  -- There is one execution a worker at most, so the counter does not wrap.
  have hle := t.recorder.pending_le
  have hinflight : t.recorder.metrics.inflightTasks = u64 (s.recorder.pending + 1) := by
    rw [hr, Recorder.start_inflight, h.inflight]
  rw [hinflight, hpending]
  exact u64_of_lt (i := s.recorder.pending + 1) (by omega)

/-- A worker records the outcome of its execution. -/
theorem record (h : Paired s) (hn : n < 2 ^ 64) {pc : WorkerPc} (old : s.workers w = .busy line u)
    (hline : line.recorded = some 0) (hpc : pc.recorded = some 1)
    (hinflight : t.recorder.metrics.inflightTasks = u64 (s.recorder.metrics.inflightTasks - 1))
    (houtcomes : t.recorder.outcomes =
      Function.update s.recorder.outcomes w ((s.recorder.outcomes w).map (· + 1)))
    (hconcluded : t.recorder.concluded = s.recorder.concluded)
    (hw : t.workers = Function.update s.workers w pc) : Paired t := by
  have hzero : s.recorder.outcomes w = some 0 := by rw [h.workers w, old]; exact hline
  rw [hzero, Option.map_some] at houtcomes
  refine ⟨?_, h.workers_update houtcomes hw hpc.symm, fun k hk => h.concluded k (hconcluded ▸ hk)⟩
  have hpending := Recorder.pending_update houtcomes
  rw [hzero, if_pos rfl, if_neg (by simp)] at hpending
  -- The execution was among the pending ones, so the counter is not 0.
  have hle := s.recorder.pending_le
  have hsub : ((s.recorder.pending : Int) - 1) = (t.recorder.pending : Nat) := by omega
  rw [hinflight, h.inflight, hsub]
  exact u64_of_lt (by omega)

theorem line_move (h : Paired s) (hn : n < 2 ^ 64) {now : Int} {ok : Bool} {k : Task}
    (hcontained : s.raises u ok line = false) (old : s.workers w = .busy line u)
    (hline : LineStep s u now ok line line' k) (hr : t.recorder = line.recorder s w u now)
    (hw : t.workers = Function.update s.workers w (.busy line' u)) : Paired t := by
  have hrecorded := hline.recorded hcontained
  cases hline with
  | start => exact h.started hn old hr hw
  | completion => exact h.record hn old rfl rfl (hr ▸ rfl) (hr ▸ rfl) (hr ▸ rfl) hw
  | failure => exact h.record hn old rfl rfl (hr ▸ rfl) (hr ▸ rfl) (hr ▸ rfl) hw
  | _ =>
    refine h.quiet hr hw rfl rfl rfl (Threads.congr_update WorkerPc.recorded ?_)
    rw [old]
    exact hrecorded

/-- A step of a worker that touches no counter and leaves it as many outcomes. -/
theorem moved (h : Paired s) {pc : WorkerPc} (hr : t.recorder = s.recorder)
    (hw : t.workers = Function.update s.workers w pc)
    (hpc : pc.recorded = (s.workers w).recorded) : Paired t :=
  h.quiet hr hw rfl rfl rfl (Threads.congr_update WorkerPc.recorded hpc)

theorem move (h : Paired s) (hn : n < 2 ^ 64) (hok : Contained s a) (hm : Move s a t) :
    Paired t := by
  cases hm with
  | @client c now pc hstep =>
    have hquiet := ClientPc.recorder_quiet (s := s) (s.clients c)
    exact h.quiet rfl rfl hquiet.1 hquiet.2.1 hquiet.2.2 fun _ => rfl
  | takes old mem => exact h.moved rfl rfl (by rw [old]; rfl)
  | line old hline =>
    simp only [Contained, old] at hok
    exact h.line_move hn hok old hline rfl rfl
  | workerNotifies old => exact h.moved rfl rfl (by rw [old]; rfl)
  | clears old => exact h.conclude old rfl rfl rfl
  | resetsFlag old => exact h.moved rfl rfl (by rw [old]; rfl)
  | remarks old free => exact h.moved rfl rfl (by rw [old]; rfl)
  | remarkLoses old => exact h.conclude old rfl rfl rfl
  | resubmits old => exact h.conclude old rfl rfl rfl
  | _ => exact h.quiet rfl rfl rfl rfl rfl fun _ => rfl

end Paired

/-- **Executions under way.** In a run in which no exception leaves `on_success`, `inflight_tasks`
is the number of executions with a start and no outcome recorded, and every execution that is over
has had one outcome recorded. The number of workers is a `size_t`. -/
theorem inflight_accounted {as : List (Action m n)} {s : State m n}
    (run : Run step Contained (start m n) as s) (hn : n < 2 ^ 64) : Accounted s := by
  have hpreserved : Preserved (step (m := m) (n := n)) Contained Paired :=
    fun _ _ _ h hok hstep => h.move hn hok (.of_step hstep)
  exact (run.invariant hpreserved paired_start).accounted

theorem inflight_accounted_retried :
    Accounted ((exec step Contained (start 1 1) Schedule.retried).get (by decide +kernel)) :=
  inflight_accounted (.of_isSome (by decide +kernel)) (by decide)

/-- The callback of a task throws; both hooks have recorded the execution. -/
def Schedule.throwingCallback : List (Action 1 1) :=
  submit {} ++ .take 0 1 :: worker 9 ++ [.worker 0 0 false] ++ worker 1

/-- The failure hook has just recorded the execution. -/
def recordedTwice : State 1 1 :=
  (exec step free (start 1 1) Schedule.throwingCallback).get (by decide +kernel)

theorem inflight_wraps : ¬ ∀ (as : List (Action 1 1)) (s : State 1 1),
    Run step free (start 1 1) as s → Accounted s := by
  intro hall
  have honce := (hall Schedule.throwingCallback recordedTwice (.of_isSome _)).inflight
  exact absurd honce (by decide +kernel)

end Executor
end NexusTask
