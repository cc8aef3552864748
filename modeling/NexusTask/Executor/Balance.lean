import Mathlib.Order.Interval.Finset.Nat
import NexusTask.Executor.Absorption
import NexusTask.Executor.Entered
import NexusTask.Executor.Inflight

/-!
# One outcome for each submission

The counters say `submitted = completed + (failed - retried) + cancelled` when every task is done
with, if each submission was counted in one outcome. A task is `Due` while it is counted as
submitted and in no outcome: it is not terminal, or whoever made it so has not recorded that yet, or
a worker has recorded its retry. In an orderly run the counters owe an outcome for exactly the tasks
that are due.
-/

set_option autoImplicit false

namespace NexusTask
namespace Executor

open Transition

variable {m n : Nat}

/-! ## The condition -/

/-- What the runs below are about: no `submit_async`, no throwing callback. -/
structure Simple (s : State m n) (a : Action m n) : Prop where
  noAsync : NotAsync a
  callback : CallbackReturns s a

/-- The condition on them. -/
structure Accountable (s : State m n) (a : Action m n) : Prop where
  simple : Simple s a
  orderly : Orderly s a

instance (s : State m n) (a : Action m n) : Decidable (Simple s a) :=
  decidable_of_iff (NotAsync a ∧ CallbackReturns s a)
    ⟨fun ⟨h₁, h₂⟩ => ⟨h₁, h₂⟩, fun ⟨h₁, h₂⟩ => ⟨h₁, h₂⟩⟩

instance (s : State m n) (a : Action m n) : Decidable (Accountable s a) :=
  decidable_of_iff (Simple s a ∧ Orderly s a) ⟨fun ⟨h₁, h₂⟩ => ⟨h₁, h₂⟩, fun ⟨h₁, h₂⟩ => ⟨h₁, h₂⟩⟩

/-! ## Tasks without an outcome -/

/-- The status may be final, and the outcome is still to be recorded, or was taken back. -/
def Line.unrecorded : Line → Bool
  | .onSuccess | .catchAll | .onFailure | .resetStatus => true
  | _ => false

@[simp] def WorkerPc.unrecorded : WorkerPc → List TaskId
  | .busy line t => if line.unrecorded then [t] else []
  | .idle => []

namespace ClientPc

/-- The task a submission is about to count. -/
@[simp] def recording : ClientPc → List TaskId
  | .record t _ => [t]
  | _ => []

/-- The task a `cancel` has stored Cancelled for, and is still to count. -/
@[simp] def unrecorded : ClientPc → List TaskId
  | .cancelPromise t | .cancelException t | .cancelRecord t => [t]
  | _ => []

theorem entering_of_recording {pc : ClientPc} {u : TaskId} (h : u ∈ pc.recording) :
    u ∈ pc.entering := by
  cases pc <;> simp_all

theorem cancelled_of_unrecorded {pc : ClientPc} {u : TaskId} (h : u ∈ pc.unrecorded) :
    u ∈ pc.cancelled := by
  cases pc <;> simp_all

end ClientPc

theorem Call.entry_recording (op : Call) : op.entry.recording = [] := by cases op <;> rfl
theorem Call.entry_unrecorded (op : Call) : op.entry.unrecorded = [] := by cases op <;> rfl

namespace State

variable (s : State m n)

/-- `u` is counted as submitted, and in no outcome. -/
def Due (u : TaskId) : Prop :=
  (∀ c, u ∉ (s.clients c).recording) ∧
    ((s.graph.task u).status.isTerminal = false ∨ (∃ w, u ∈ (s.workers w).unrecorded) ∨
      ∃ c, u ∈ (s.clients c).unrecorded)

instance : DecidablePred s.Due := fun u =>
  inferInstanceAs (Decidable ((∀ c, u ∉ (s.clients c).recording) ∧
    ((s.graph.task u).status.isTerminal = false ∨ (∃ w, u ∈ (s.workers w).unrecorded) ∨
      ∃ c, u ∈ (s.clients c).unrecorded)))

/-- Ids are given out from 1 on. -/
def dueCount : Nat := ((Finset.Ico 1 s.nextTaskId).filter s.Due).card

variable {s} {t : State m n} {u : TaskId}

theorem due_congr (hrecording : ∀ c, u ∈ (t.clients c).recording ↔ u ∈ (s.clients c).recording)
    (hclients : ∀ c, u ∈ (t.clients c).unrecorded ↔ u ∈ (s.clients c).unrecorded)
    (hworkers : ∀ w, u ∈ (t.workers w).unrecorded ↔ u ∈ (s.workers w).unrecorded)
    (hstatus : (t.graph.task u).status.isTerminal = (s.graph.task u).status.isTerminal) :
    t.Due u ↔ s.Due u := by
  unfold Due
  rw [hstatus]
  exact and_congr (forall_congr' fun c => not_congr (hrecording c))
    (or_congr Iff.rfl (or_congr (exists_congr hworkers) (exists_congr hclients)))

end State

/-! ## What the threads around a task do -/

/-- A client that has stored Cancelled finds it there when it counts. -/
structure Stored (s : State m n) : Prop where
  status : ∀ c, ∀ u ∈ (s.clients c).unrecorded, (s.graph.task u).status = .cancelled

theorem stored_start : Stored (start m n) := ⟨fun c u hu => absurd hu (by simp [start])⟩

theorem ClientStep.unrecorded {s : State m n} {pc pc' : ClientPc} {u : TaskId}
    (h : ClientStep s pc pc') (hu : u ∈ pc'.unrecorded) : u ∈ pc.unrecorded := by
  cases h <;> simp_all

theorem Move.unrecorded {s t : State m n} {a : Action m n} (hm : Move s a t) {c : Fin m}
    {u : TaskId} (hu : u ∈ (t.clients c).unrecorded) :
    u ∈ (s.clients c).unrecorded ∨ s.clients c = .cancelStatus u ∧ t.clients c ≠ s.clients c := by
  rcases hm.clientMove c with hsame | hmove
  · exact .inl (hsame ▸ hu)
  · generalize s.clients c = pc, t.clients c = pc' at hmove hu
    cases hmove with
    | call => exact absurd (Call.entry_unrecorded _ ▸ hu) List.not_mem_nil
    | quiet h => exact .inl (h.unrecorded hu)
    | cancelStatus => exact .inr ⟨by rw [List.mem_singleton.mp hu], nofun⟩
    | _ => exact absurd hu (by simp)

theorem Stored.move {s t : State m n} {a : Action m n} (h : Stored s) (hs : Sound s)
    (hm : Move s a t) : Stored t := by
  refine ⟨fun c u hu => ?_⟩
  rcases hm.unrecorded hu with hold | ⟨hc, hmoved⟩
  · have hstatus := h.status c u hold
    have hcancelled := hs.tokens.cancelled c u (ClientPc.cancelled_of_unrecorded hold)
    cases hm.phase u with
    | same status canRetry => exact status.trans hstatus
    | born new status =>
      exact absurd new (Nat.ne_of_lt (hs.known.launched_lt (.cancelled hcancelled)))
    | line act old hline next =>
      have henqueued := hs.tokens.enqueued_of_held (old ▸ WorkerPc.mem_held hline.holds.1)
      exact absurd (hcancelled.symm.trans (hs.tokens.not_cancelled henqueued)) (by simp)
    | cancelFlag target fresh status => exact status.trans hstatus
    | cancelStatus old next status => exact status
    | notified pos status =>
      have hsettled := hs.launch.settled u (.cancelled hcancelled)
      exact absurd pos (Int.not_lt.mpr hsettled.count)
  · exact hm.cancelStatus_stores hc hmoved

/-- Without `submit_async` nobody comes to a call on a promise. -/
structure Unpromised (s : State m n) : Prop where
  clients : ∀ c u, s.clients c ≠ .cancelException u
  workers : ∀ w u, s.workers w ≠ .busy .setCallbackValue u ∧ s.workers w ≠ .busy .setValue u

theorem unpromised_start : Unpromised (start m n) := ⟨fun _ _ => nofun, fun _ _ => ⟨nofun, nofun⟩⟩

theorem Unpromised.move {s t : State m n} {a : Action m n} (h : Unpromised s) (hs : Synchronous s)
    (hm : Move s a t) : Unpromised t where
  clients c u := by
    rcases hm.clientMove c with hsame | hmove
    · rw [hsame]
      exact h.clients c u
    · intro hc
      generalize s.clients c = pc at hmove
      rw [hc] at hmove
      generalize hpc : ClientPc.cancelException u = pc' at hmove
      cases hmove with
      | @call op => cases op <;> exact absurd hpc nofun
      | quiet hstep =>
        cases hstep with
        | cancelRegistered hmem =>
          rw [hs.table] at hmem
          exact absurd hmem List.not_mem_nil
        | _ => exact absurd hpc nofun
      | _ => exact absurd hpc nofun
  workers w u := by
    rcases hm.workerMove w with hsame | hmove
    · rw [hsame]
      exact h.workers w u
    · generalize s.workers w = pc, t.workers w = pc' at hmove
      cases hmove with
      | @line now ok x line line' act hline =>
        generalize t.graph.task x = k at hline
        cases hline with
        | wrapped hw => exact absurd ((hs.tasks x).symm.trans hw) (by simp)
        | registered hmem =>
          rw [hs.table] at hmem
          exact absurd hmem List.not_mem_nil
        | _ => exact ⟨nofun, nofun⟩
      | _ => exact ⟨nofun, nofun⟩

/-- Ids are positive. -/
structure Numbered (s : State m n) : Prop where
  next : 1 ≤ s.nextTaskId
  ids : ∀ u ∈ s.graph.ids, 1 ≤ u
  entering : ∀ c, ∀ u ∈ (s.clients c).entering, 1 ≤ u

theorem numbered_start : Numbered (start m n) where
  next := Nat.le_refl 1
  ids u hu := absurd hu (by simp [start])
  entering c u hu := absurd hu (by simp [start])

theorem Numbered.move {s t : State m n} {a : Action m n} (h : Numbered s) (hm : Move s a t) :
    Numbered t where
  next := Nat.le_trans h.next hm.nextTaskId_le
  ids u hu := by
    rcases hm.ids hu with hold | ⟨c, hc, _⟩
    · exact h.ids u hold
    · exact h.entering c u hc
  entering c u hu := by
    rcases hm.entering hu with hold | rfl
    · exact h.entering c u hold
    · exact h.next

/-- What holds of the executor in every accountable run, the counters apart. -/
structure Tidy (s : State m n) : Prop where
  sound : Sound s
  entered : Entered s
  sync : Synchronous s
  unpromised : Unpromised s
  stored : Stored s
  numbered : Numbered s

theorem tidy_start : Tidy (start m n) :=
  ⟨sound_start, entered_start, synchronous_start, unpromised_start, stored_start, numbered_start⟩

/-! ## Who is due -/

/-- Whether the task of a worker at a line is due. -/
def Line.owes (line : Line) (k : Task) : Bool := !k.status.isTerminal || line.unrecorded

namespace Tidy

variable {s t : State m n} {a : Action m n} {u : TaskId} {c : Fin m} {w : Fin n}

theorem move (h : Tidy s) (hok : Accountable s a) (hm : Move s a t) : Tidy t where
  sound := h.sound.move hok.orderly hm
  entered := h.entered.move hm
  sync := h.sync.move hok.simple.noAsync hm
  unpromised := h.unpromised.move h.sync hm
  stored := h.stored.move h.sound hm
  numbered := h.numbered.move hm

theorem not_recording (h : Tidy s) (hu : u ∈ s.graph.ids) (c : Fin m) :
    u ∉ (s.clients c).recording := fun hc =>
  h.entered.entering c u (ClientPc.entering_of_recording hc) hu

theorem mem_Ico (h : Tidy s) (hu : u ∈ s.graph.ids) : u ∈ Finset.Ico 1 s.nextTaskId :=
  Finset.mem_Ico.mpr ⟨h.numbered.ids u hu, h.entered.known.ids u hu⟩

theorem mem_ids (h : Tidy s) {line : Line} (old : s.workers w = .busy line u) :
    u ∈ s.graph.ids := h.entered.workers w u (by rw [old]; exact List.mem_singleton_self u)

/-- A task that `cancel` is working on is with no worker. -/
theorem not_unrecorded_of_cancelled (h : Tidy s) (hc : (s.graph.task u).cancelled = true)
    (w : Fin n) : u ∉ (s.workers w).unrecorded := by
  intro hu
  have hheld : u ∈ (s.workers w).held := by
    generalize s.workers w = pc at hu ⊢
    cases pc with
    | idle => exact hu
    | busy line x => cases line <;> simp_all [Line.unrecorded, Line.holds]
  exact absurd (hc.symm.trans (h.sound.tokens.not_cancelled (h.sound.tokens.enqueued_of_held hheld)))
    (by simp)

theorem due_iff_of_busy (h : Tidy s) {line : Line} (old : s.workers w = .busy line u)
    (hline : line.holds = true) : s.Due u ↔ line.owes (s.graph.task u) = true := by
  -- The worker has the flag: no `cancel` has taken effect and no other worker has the task.
  have hheld : u ∈ (s.workers w).held := old ▸ WorkerPc.mem_held hline
  have hfresh := h.sound.tokens.not_cancelled (h.sound.tokens.enqueued_of_held hheld)
  have hclients : ¬ ∃ c, u ∈ (s.clients c).unrecorded := by
    rintro ⟨c, hc⟩
    have hcancelled := h.sound.tokens.cancelled c u (ClientPc.cancelled_of_unrecorded hc)
    exact absurd (hfresh.symm.trans hcancelled) (by simp)
  have hworkers : (∃ v, u ∈ (s.workers v).unrecorded) ↔ line.unrecorded = true := by
    constructor
    · rintro ⟨v, hv⟩
      obtain ⟨line', hv'⟩ : ∃ line', s.workers v = .busy line' u := by
        generalize s.workers v = pc at hv
        cases pc with
        | idle => exact absurd hv List.not_mem_nil
        | busy line' x => exact ⟨line', by simp_all⟩
      have hrecorded : line'.unrecorded = true := by simpa [hv'] using hv
      have hholds : line'.holds = true := by
        cases line' <;> simp_all [Line.unrecorded, Line.holds]
      obtain rfl := h.sound.tokens.holder_unique hheld (hv' ▸ WorkerPc.mem_held hholds)
      rwa [(WorkerPc.busy.inj (old.symm.trans hv')).1]
    · intro hrecorded
      exact ⟨w, by rw [old]; simp [hrecorded]⟩
  unfold State.Due Line.owes
  rw [hworkers, Bool.or_eq_true, Bool.not_eq_true']
  constructor
  · rintro ⟨_, hstatus | hrecorded | hclient⟩
    · exact .inl hstatus
    · exact .inr hrecorded
    · exact absurd hclient hclients
  · intro howes
    exact ⟨h.not_recording (h.mem_ids old), howes.imp id .inl⟩

end Tidy

/-! ## Steps and counters -/

/-- What the counters owe and the tasks that are due change alike. -/
def Keeps (s t : State m n) : Prop :=
  t.recorder.metrics.owed - t.dueCount ≡ s.recorder.metrics.owed - s.dueCount [ZMOD 2 ^ 64]

namespace Keeps

variable {s t : State m n} {x : TaskId}

theorem of_same (hnext : t.nextTaskId = s.nextTaskId)
    (howed : t.recorder.metrics.owed = s.recorder.metrics.owed) (hdue : ∀ u, t.Due u ↔ s.Due u) :
    Keeps s t := by
  have hcount : t.dueCount = s.dueCount := by
    unfold State.dueCount
    rw [hnext, Finset.filter_congr fun u _ => hdue u]
  unfold Keeps
  rw [howed, hcount]

theorem of_sole (hnext : t.nextTaskId = s.nextTaskId) (hx : x ∈ Finset.Ico 1 s.nextTaskId)
    (hothers : ∀ u, u ≠ x → (t.Due u ↔ s.Due u))
    (howed : t.recorder.metrics.owed ≡ s.recorder.metrics.owed + (if t.Due x then 1 else 0)
      - (if s.Due x then 1 else 0) [ZMOD 2 ^ 64]) : Keeps s t := by
  have hcount := card_filter_of_sole hx fun u _ hu => hothers u hu
  unfold Keeps State.dueCount
  rw [hnext]
  have hsub := howed.sub_right (((Finset.Ico 1 s.nextTaskId).filter t.Due).card : Int)
  refine hsub.trans (congrArg (· % 2 ^ 64) ?_)
  -- What is left is arithmetic, whether or not the task is due before and after.
  by_cases ht : t.Due x <;> by_cases hs : s.Due x <;>
    simp only [ht, hs, if_true, if_false] at hcount ⊢
    <;> omega

end Keeps

/-- Counters and dues agree on what a line does to its task. -/
theorem LineStep.owed {s : State m n} {w : Fin n} {u : TaskId} {now : Int} {ok : Bool} {k : Task}
    {line line' : Line} (h : LineStep s u now ok line line' k)
    (hpermits : line.Permits (s.graph.task u)) (hcallback : line = .callback → ok = true)
    (hpromise : line ≠ .setCallbackValue ∧ line ≠ .setValue) :
    (line.recorder s w u now).metrics.owed ≡ s.recorder.metrics.owed
      + (if line'.owes k = true then 1 else 0)
      - (if line.owes (s.graph.task u) = true then 1 else 0) [ZMOD 2 ^ 64] := by
  -- A line that counts nothing leaves the task as due as it was.
  have hquiet : (line.recorder s w u now).metrics.owed = s.recorder.metrics.owed →
      line'.owes k = line.owes (s.graph.task u) →
      (line.recorder s w u now).metrics.owed ≡ s.recorder.metrics.owed
        + (if line'.owes k = true then 1 else 0)
        - (if line.owes (s.graph.task u) = true then 1 else 0) [ZMOD 2 ^ 64] := by
    intro howed howes
    rw [howed, howes, Int.add_sub_cancel]
  have hterminal : (s.graph.task u).status = .completed ∨ (s.graph.task u).status = .failed →
      (s.graph.task u).status.isTerminal = true := by
    rintro (hs | hs) <;> rw [hs] <;> rfl
  cases h with
  | start => exact hquiet (Recorder.start_owed ..) rfl
  | storeCancelled => exact absurd hpermits id
  | completion =>
    have hdone : (s.graph.task u).status = .completed := hpermits
    have howed : (Line.onSuccess.recorder s w u now).metrics.owed
        ≡ s.recorder.metrics.owed - 1 [ZMOD 2 ^ 64] := Metrics.recordCompletion_owed ..
    simpa [Line.owes, Line.unrecorded, hterminal (.inl hdone)] using howed
  | failure =>
    have howed : (Line.onFailure.recorder s w u now).metrics.owed
        ≡ s.recorder.metrics.owed - 1 [ZMOD 2 ^ 64] := Metrics.recordFailure_owed ..
    simpa [Line.owes, Line.unrecorded, hterminal hpermits] using howed
  | recordRetry =>
    have howed : (Line.recordRetry.recorder s w u now).metrics.owed
        ≡ s.recorder.metrics.owed + 1 [ZMOD 2 ^ 64] := Metrics.recordRetry_owed ..
    simpa [Line.owes, Line.unrecorded, hterminal hpermits] using howed
  | callbackRaised hok => exact absurd ((hcallback rfl).symm.trans hok) (by simp)
  | callbackValue => exact absurd rfl hpromise.1
  | callbackValueRaised => exact absurd rfl hpromise.1
  | value => exact absurd rfl hpromise.2
  | valueRaised => exact absurd rfl hpromise.2
  | storeRunning | uncancelled | cancelled =>
    refine hquiet rfl ?_
    have hwaiting : (s.graph.task u).status.isWaiting = true := hpermits
    cases hs : (s.graph.task u).status <;>
      simp_all [Line.owes, Line.unrecorded, TaskStatus.isWaiting, TaskStatus.isTerminal]
  | _ =>
    refine hquiet rfl ?_
    simp_all [Line.owes, Line.unrecorded, Line.Permits, TaskStatus.isTerminal]

namespace Tidy

variable {s t : State m n} {a : Action m n} {u : TaskId} {c : Fin m} {w : Fin n}

/-- A worker's step on its task. -/
theorem line_keeps (h : Tidy s) (ht : Tidy t) {line line' : Line} {k : Task} {now : Int} {ok : Bool}
    (old : s.workers w = .busy line u) (hline : LineStep s u now ok line line' k)
    (hcallback : line = .callback → ok = true) (hnext : t.nextTaskId = s.nextTaskId)
    (hclients : t.clients = s.clients) (hrecorder : t.recorder = line.recorder s w u now)
    (hgraph : t.graph = s.graph.modify u fun _ => k)
    (hworkers : t.workers = Function.update s.workers w (.busy line' u)) : Keeps s t := by
  have new : t.workers w = .busy line' u := by rw [hworkers, Function.update_self]
  have htask : t.graph.task u = k := by rw [hgraph, DependencyGraph.modify_self]
  have hpromise : line ≠ .setCallbackValue ∧ line ≠ .setValue := by
    constructor <;> rintro rfl
    · exact (h.unpromised.workers w u).1 old
    · exact (h.unpromised.workers w u).2 old
  refine .of_sole hnext (h.mem_Ico (h.mem_ids old)) (fun x hx => ?_) ?_
  · refine State.due_congr (fun c => by rw [hclients]) (fun c => by rw [hclients]) (fun v => ?_) ?_
    · rw [hworkers]
      refine Threads.iff_update (x ∈ WorkerPc.unrecorded ·) ?_ v
      rw [old]
      simp [hx]
    · rw [hgraph, DependencyGraph.modify_of_ne hx]
  · have howed := hline.owed (w := w) (h.sound.phase.workers w line u old) hcallback hpromise
    rw [hrecorder]
    simpa only [h.due_iff_of_busy old hline.holds.1, ht.due_iff_of_busy new hline.holds.2,
      htask] using howed

/-- A step that counts nothing, and after which as many tasks wait for their outcome. -/
theorem quiet_keeps {pcs : Fin m → ClientPc} {pcs' : Fin n → WorkerPc}
    (hnext : t.nextTaskId = s.nextTaskId)
    (howed : t.recorder.metrics.owed = s.recorder.metrics.owed)
    (hclients : t.clients = pcs) (hworkers : t.workers = pcs')
    (hrecording : ∀ u c, u ∈ (pcs c).recording ↔ u ∈ (s.clients c).recording)
    (hunrecorded : ∀ u c, u ∈ (pcs c).unrecorded ↔ u ∈ (s.clients c).unrecorded)
    (hlines : ∀ u w, u ∈ (pcs' w).unrecorded ↔ u ∈ (s.workers w).unrecorded)
    (hstatus : ∀ u, (t.graph.task u).status.isTerminal = (s.graph.task u).status.isTerminal) :
    Keeps s t := by
  subst hclients hworkers
  exact .of_same hnext howed fun u =>
    State.due_congr (hrecording u) (hunrecorded u) (hlines u) (hstatus u)

/-- A step of a client that is not about to count, and will not be. -/
theorem client_quiet {old pc : ClientPc} (hold : s.clients c = old)
    (hnext : t.nextTaskId = s.nextTaskId)
    (howed : t.recorder.metrics.owed = s.recorder.metrics.owed)
    (hclients : t.clients = Function.update s.clients c pc) (hworkers : t.workers = s.workers)
    (hrecording : pc.recording = old.recording) (hunrecorded : pc.unrecorded = old.unrecorded)
    (hstatus : ∀ u, (t.graph.task u).status.isTerminal = (s.graph.task u).status.isTerminal) :
    Keeps s t :=
  quiet_keeps hnext howed hclients hworkers
    (fun u => Threads.iff_update (u ∈ ClientPc.recording ·) (by rw [hold, hrecording]))
    (fun u => Threads.iff_update (u ∈ ClientPc.unrecorded ·) (by rw [hold, hunrecorded]))
    (fun _ _ => Iff.rfl) hstatus

/-- A step of a worker with nothing to record before and after it. -/
theorem worker_quiet {old pc : WorkerPc} (hold : s.workers w = old)
    (hnext : t.nextTaskId = s.nextTaskId)
    (howed : t.recorder.metrics.owed = s.recorder.metrics.owed) (hclients : t.clients = s.clients)
    (hworkers : t.workers = Function.update s.workers w pc)
    (hunrecorded : pc.unrecorded = old.unrecorded)
    (hstatus : ∀ u, (t.graph.task u).status.isTerminal = (s.graph.task u).status.isTerminal) :
    Keeps s t :=
  quiet_keeps hnext howed hclients hworkers (fun _ _ => Iff.rfl) (fun _ _ => Iff.rfl)
    (fun u => Threads.iff_update (u ∈ WorkerPc.unrecorded ·) (by rw [hold, hunrecorded])) hstatus

/-- Of a task outside the graph only its submission knows. -/
theorem waiting_of_entering (h : Tidy s) (hc : u ∈ (s.clients c).entering) :
    (s.graph.task u).status.isTerminal = false := by
  exact TaskStatus.not_terminal_of_waiting (h.entered.waiting u (h.entered.entering c u hc))

/-- A submission is counted: from now on its task is due. -/
theorem record_keeps (h : Tidy s) {deps : List TaskId} (hold : s.clients c = .record u deps)
    (hnext : t.nextTaskId = s.nextTaskId)
    (howed : t.recorder.metrics.owed ≡ s.recorder.metrics.owed + 1 [ZMOD 2 ^ 64])
    (hclients : t.clients = Function.update s.clients c (.add u deps))
    (hworkers : t.workers = s.workers) (hgraph : t.graph = s.graph) : Keeps s t := by
  have hentering : u ∈ (s.clients c).entering := by rw [hold]; exact List.mem_singleton_self u
  have hbefore : ¬ s.Due u := fun hdue =>
    hdue.1 c (by rw [hold]; exact List.mem_singleton_self u)
  have hafter : t.Due u := by
    refine ⟨fun d => ?_, .inl ?_⟩
    · rw [hclients]
      by_cases hd : d = c
      · subst hd
        simp
      · rw [Function.update_of_ne hd]
        intro hrecording
        -- It would be a second submission of the same task.
        exact hd (h.entered.submitter d c u
          (ClientPc.submitting_of_entering (ClientPc.entering_of_recording hrecording))
          (ClientPc.submitting_of_entering hentering))
    · rw [hgraph]
      exact h.waiting_of_entering hentering
  have hlt := h.entered.known.clients c u
    (ClientPc.refers_of_submitting (ClientPc.submitting_of_entering hentering))
  refine .of_sole hnext (Finset.mem_Ico.mpr ⟨h.numbered.entering c u hentering, hlt⟩)
    (fun x hx => ?_) ?_
  · refine State.due_congr (fun d => ?_) (fun d => ?_) (fun v => by rw [hworkers]) (by rw [hgraph])
    · rw [hclients]
      exact Threads.iff_update (x ∈ ClientPc.recording ·) (by simp [hold, hx]) d
    · rw [hclients]
      exact Threads.iff_update (x ∈ ClientPc.unrecorded ·) (by simp [hold]) d
  · rw [if_pos hafter, if_neg hbefore, Int.sub_zero]
    exact howed

/-- A cancellation is counted: its task is not due any more. -/
theorem cancelRecord_keeps (h : Tidy s) (hold : s.clients c = .cancelRecord u)
    (hnext : t.nextTaskId = s.nextTaskId)
    (howed : t.recorder.metrics.owed ≡ s.recorder.metrics.owed - 1 [ZMOD 2 ^ 64])
    (hclients : t.clients = Function.update s.clients c (.cancelNotify u))
    (hworkers : t.workers = s.workers) (hgraph : t.graph = s.graph) : Keeps s t := by
  have hunrecorded : u ∈ (s.clients c).unrecorded := by rw [hold]; exact List.mem_singleton_self u
  have hids : u ∈ s.graph.ids :=
    h.entered.clients c u (by rw [hold]; exact List.mem_singleton_self u)
  have hcanceller := ClientPc.cancelled_of_unrecorded hunrecorded
  have hcancelled := h.sound.tokens.cancelled c u hcanceller
  have hbefore : s.Due u := ⟨h.not_recording hids, .inr (.inr ⟨c, hunrecorded⟩)⟩
  have hafter : ¬ t.Due u := by
    rintro ⟨_, hstatus | ⟨w, hw⟩ | ⟨d, hd⟩⟩
    · rw [hgraph, h.stored.status c u hunrecorded] at hstatus
      exact absurd hstatus (by simp [TaskStatus.isTerminal])
    · rw [hworkers] at hw
      exact h.not_unrecorded_of_cancelled hcancelled w hw
    · rw [hclients] at hd
      by_cases hdc : d = c
      · subst hdc
        exact absurd hd (by simp)
      · rw [Function.update_of_ne hdc] at hd
        exact hdc (h.sound.phase.canceller d c u (ClientPc.cancelled_of_unrecorded hd) hcanceller)
  refine .of_sole hnext (h.mem_Ico hids) (fun x hx => ?_) ?_
  · refine State.due_congr (fun d => ?_) (fun d => ?_) (fun v => by rw [hworkers]) (by rw [hgraph])
    · rw [hclients]
      exact Threads.iff_update (x ∈ ClientPc.recording ·) (by simp [hold]) d
    · rw [hclients]
      exact Threads.iff_update (x ∈ ClientPc.unrecorded ·) (by simp [hold, hx]) d
  · rw [if_neg hafter, if_pos hbefore, Int.add_zero]
    exact howed

/-- Cancelled is stored: the task was due as a waiting one, and is now to be counted. -/
theorem cancelStatus_keeps (h : Tidy s) (hold : s.clients c = .cancelStatus u)
    (hnext : t.nextTaskId = s.nextTaskId)
    (howed : t.recorder.metrics.owed = s.recorder.metrics.owed)
    (hclients : t.clients = Function.update s.clients c (.cancelPromise u))
    (hworkers : t.workers = s.workers)
    (hothers : ∀ x, x ≠ u → t.graph.task x = s.graph.task x) : Keeps s t := by
  have hids : u ∈ s.graph.ids :=
    h.entered.clients c u (by rw [hold]; exact List.mem_singleton_self u)
  have hrecording : ∀ x d, x ∈ (t.clients d).recording ↔ x ∈ (s.clients d).recording := by
    intro x d
    rw [hclients]
    exact Threads.iff_update (x ∈ ClientPc.recording ·) (by simp [hold]) d
  refine .of_same hnext howed fun x => ?_
  by_cases hx : x = u
  · subst hx
    have hwaiting : (s.graph.task x).status.isTerminal = false :=
      TaskStatus.not_terminal_of_waiting (h.sound.phase.cancelling c x hold)
    -- It was due as a waiting task, and is as one whose cancellation is not counted.
    have hafter : x ∈ (t.clients c).unrecorded := by
      rw [hclients, Function.update_self]
      exact List.mem_singleton_self x
    exact ⟨fun _ => ⟨h.not_recording hids, .inl hwaiting⟩,
      fun hdue => ⟨fun d => (hrecording x d).not.mpr (hdue.1 d), .inr (.inr ⟨c, hafter⟩)⟩⟩
  · refine State.due_congr (hrecording x) (fun d => ?_) (fun v => by rw [hworkers])
      (by rw [hothers x hx])
    rw [hclients]
    exact Threads.iff_update (x ∈ ClientPc.unrecorded ·) (by simp [hold, hx]) d

/-- A new task is not due before its submission is counted. -/
theorem newTask_keeps {deps : List TaskId} {options : TaskOptions} {async : Bool}
    {now : Int} (hold : s.clients c = .newTask deps options async) :
    Keeps s ((s.newTask deps options async now).setClient c (.record s.nextTaskId deps)) := by
  generalize ht : (s.newTask deps options async now).setClient c (.record s.nextTaskId deps) = t
  have hclients : t.clients = Function.update s.clients c (.record s.nextTaskId deps) := by
    rw [← ht]
    rfl
  have hdue : ∀ u, u ≠ s.nextTaskId → (t.Due u ↔ s.Due u) := by
    intro u hu
    refine State.due_congr (fun d => ?_) (fun d => ?_) (fun v => by rw [← ht]; rfl) ?_
    · rw [hclients]
      exact Threads.iff_update (u ∈ ClientPc.recording ·) (by simp [hold, hu]) d
    · rw [hclients]
      exact Threads.iff_update (u ∈ ClientPc.unrecorded ·) (by simp [hold]) d
    · rw [← ht, State.setClient_graph, State.newTask_graph, DependencyGraph.modify_of_ne hu]
  have hnew : ¬ t.Due s.nextTaskId := fun hdue =>
    hdue.1 c (by rw [hclients, Function.update_self]; exact List.mem_singleton_self _)
  -- There is one id more, and its task is not due.
  have hcount : t.dueCount = s.dueCount := by
    have hnext : t.nextTaskId = s.nextTaskId + 1 := by rw [← ht]; rfl
    unfold State.dueCount
    congr 1
    ext u
    rw [hnext, Finset.mem_filter, Finset.mem_filter, Finset.mem_Ico, Finset.mem_Ico]
    by_cases hu : u = s.nextTaskId
    · subst hu
      simp [hnew]
    · rw [hdue u hu]
      exact and_congr_left fun _ => and_congr_right fun _ =>
        ⟨fun hlt => Nat.lt_of_le_of_ne (Nat.le_of_lt_succ hlt) hu, Nat.lt_succ_of_lt⟩
  have howed : t.recorder.metrics = s.recorder.metrics := by rw [← ht]; rfl
  unfold Keeps
  rw [hcount, howed]

/-- A notification makes no task terminal, and none that is terminal anything else. -/
theorem notify_terminal (h : Tidy s) (d u : TaskId) :
    ((s.notify d).graph.task u).status.isTerminal = (s.graph.task u).status.isTerminal := by
  rw [State.notify_graph]
  by_cases hd : d ∈ s.graph.ids
  · rw [DependencyGraph.notifyTaskCompleted_task hd]
    rcases Task.notify_status_cases (s.graph.task u) ((s.graph.task d).dependents.count u) with
      hsame | ⟨hpos, hready⟩
    · rw [hsame]
    · rw [hready]
      by_contra hterminal
      have hlaunched : s.Launched u := .begun (TaskStatus.not_waiting_of_terminal (by
        cases hst : (s.graph.task u).status <;> simp_all [TaskStatus.isTerminal]))
      exact absurd hpos (Int.not_lt.mpr (h.sound.launch.settled u hlaunched).count)
  · rw [DependencyGraph.notifyTaskCompleted_of_notMem hd]

theorem clientStep_keeps (h : Tidy s) {old pc : ClientPc} (hold : s.clients c = old)
    (hstep : ClientStep s old pc) :
    Keeps s (((s.setPromises (old.promises s)).setRecorder (old.recorder s)).setClient c pc) := by
  cases hstep with
  -- Nothing was submitted with `submit_async`.
  | recordAsync hw => exact absurd ((h.sync.tasks _).symm.trans hw) (by simp)
  | record => exact h.record_keeps hold rfl (Metrics.recordSubmission_owed _) rfl rfl rfl
  | cancelRegistered hmem => exact absurd (h.sync.table ▸ hmem) List.not_mem_nil
  | cancelException => exact absurd hold (h.unpromised.clients c _)
  | cancelRaised => exact absurd hold (h.unpromised.clients c _)
  | cancelRecord =>
    exact h.cancelRecord_keeps hold rfl (Metrics.recordCancellation_owed _) rfl rfl rfl
  | _ => exact client_quiet hold rfl rfl rfl rfl rfl rfl fun _ => rfl

theorem modify_terminal {x : TaskId} {f : Task → Task} (hg : t.graph = s.graph.modify x f)
    (hf : (f (s.graph.task x)).status = (s.graph.task x).status) (u : TaskId) :
    (t.graph.task u).status.isTerminal = (s.graph.task u).status.isTerminal := by
  rw [hg]
  exact congrArg TaskStatus.isTerminal (DependencyGraph.modify_frame (·.status) hf)

/-- Every step counts what it changes. -/
theorem move_keeps (h : Tidy s) (hok : Accountable s a) (hm : Move s a t) : Keeps s t := by
  have ht := h.move hok hm
  cases hm with
  | call old =>
    exact client_quiet old rfl rfl rfl rfl (Call.entry_recording _) (Call.entry_unrecorded _)
      fun _ => rfl
  | client hstep => exact h.clientStep_keeps rfl hstep
  | newTask now old => exact newTask_keeps old
  | addTask old => exact client_quiet old rfl rfl rfl rfl rfl rfl fun _ => rfl
  | addDependency old =>
    exact client_quiet old rfl rfl rfl rfl rfl rfl fun _ => congrArg TaskStatus.isTerminal
      (State.addDependency_frame (·.status) fun _ _ _ _ => rfl)
  | clientMarks old free =>
    exact client_quiet old rfl rfl rfl rfl rfl rfl
      (modify_terminal (State.setClient_graph.trans State.modify_graph) rfl)
  | clientEnqueues old => exact client_quiet old rfl rfl rfl rfl rfl rfl fun _ => rfl
  | cancelFlag old fresh =>
    exact client_quiet old rfl rfl rfl rfl rfl rfl
      (modify_terminal (State.setClient_graph.trans State.modify_graph) rfl)
  | cancelStatus old =>
    exact h.cancelStatus_keeps old rfl rfl rfl rfl fun _ hx => by
      rw [State.setClient_graph, State.modify_of_ne hx]
  | cancelNotify old =>
    exact client_quiet old rfl rfl rfl rfl rfl rfl fun u => h.notify_terminal _ u
  | cancelClear old =>
    exact client_quiet old rfl rfl rfl rfl rfl rfl
      (modify_terminal (State.setClient_graph.trans State.modify_graph) rfl)
  | schedulerMarks old free =>
    exact quiet_keeps rfl rfl rfl rfl (fun _ _ => Iff.rfl) (fun _ _ => Iff.rfl) (fun _ _ => Iff.rfl)
      (modify_terminal (State.setScheduler_graph.trans State.modify_graph) rfl)
  | takes old mem => exact worker_quiet old rfl rfl rfl rfl rfl fun _ => rfl
  | @line w now ok x line line' k old hline =>
    refine h.line_keeps ht old hline (fun hcallback => ?_) rfl rfl rfl rfl rfl
    subst hcallback
    simpa [CallbackReturns, old] using hok.simple.callback
  | workerNotifies old => exact worker_quiet old rfl rfl rfl rfl rfl fun u => h.notify_terminal _ u
  | clears old =>
    exact worker_quiet old rfl rfl rfl rfl rfl
      (modify_terminal (State.finish_graph.trans State.modify_graph) rfl)
  | resetsFlag old =>
    exact worker_quiet old rfl rfl rfl rfl rfl
      (modify_terminal (State.goto_graph.trans State.modify_graph) rfl)
  | remarks old free =>
    exact worker_quiet old rfl rfl rfl rfl rfl
      (modify_terminal (State.goto_graph.trans State.modify_graph) rfl)
  | remarkLoses old => exact worker_quiet old rfl rfl rfl rfl rfl fun _ => rfl
  | resubmits old => exact worker_quiet old rfl rfl rfl rfl rfl fun _ => rfl
  | _ =>
    exact quiet_keeps rfl rfl rfl rfl (fun _ _ => Iff.rfl) (fun _ _ => Iff.rfl) (fun _ _ => Iff.rfl)
      fun _ => rfl

end Tidy

theorem ClientPc.recorder_submitted {s : State m n} (pc : ClientPc)
    (h : s.recorder.metrics.tasksSubmitted < 2 ^ 64) :
    (pc.recorder s).metrics.tasksSubmitted < 2 ^ 64 := by
  cases pc with
  | record => exact u64_lt (s.recorder.metrics.tasksSubmitted + 1)
  | _ => exact h

theorem Line.recorder_submitted {s : State m n} {w : Fin n} {u : TaskId} {now : Int} (line : Line)
    (h : s.recorder.metrics.tasksSubmitted < 2 ^ 64) :
    (line.recorder s w u now).metrics.tasksSubmitted < 2 ^ 64 := by
  cases line with
  | onStart =>
    simp only [Line.recorder, Recorder.start]
    split <;> exact h
  | _ => exact h

theorem Move.submitted {s t : State m n} {a : Action m n} (hm : Move s a t)
    (h : s.recorder.metrics.tasksSubmitted < 2 ^ 64) :
    t.recorder.metrics.tasksSubmitted < 2 ^ 64 := by
  cases hm with
  | client hstep => exact ClientPc.recorder_submitted _ h
  | line old hline => exact Line.recorder_submitted _ h
  | _ => exact h

/-! ## The balance -/

structure Balanced (s : State m n) : Prop where
  tidy : Tidy s
  submitted : s.recorder.metrics.tasksSubmitted < 2 ^ 64
  owed : s.recorder.metrics.owed ≡ s.dueCount [ZMOD 2 ^ 64]

theorem balanced_start : Balanced (start m n) where
  tidy := tidy_start
  submitted := Nat.two_pow_pos 64
  owed := rfl

theorem Balanced.move {s t : State m n} {a : Action m n} (h : Balanced s) (hok : Accountable s a)
    (hm : Move s a t) : Balanced t where
  tidy := h.tidy.move hok hm
  submitted := hm.submitted h.submitted
  owed := by
    have hkeeps : t.recorder.metrics.owed - t.dueCount
        ≡ s.recorder.metrics.owed - s.dueCount [ZMOD 2 ^ 64] := h.tidy.move_keeps hok hm
    have hzero : s.recorder.metrics.owed - s.dueCount ≡ 0 [ZMOD 2 ^ 64] := by
      simpa using h.owed.sub_right (s.dueCount : Int)
    simpa using (hkeeps.trans hzero).add_right (t.dueCount : Int)

/-- Every submitted task is terminal, nothing is queued and nothing is executing; no `cancel` has
stored a status it has not counted. -/
structure State.Over (s : State m n) : Prop where
  terminal : ∀ u, 1 ≤ u → u < s.nextTaskId → (s.graph.task u).status.isTerminal = true
  queued : s.queued = []
  workers : ∀ w, s.workers w = .idle
  clients : ∀ c, (s.clients c).unrecorded = []

theorem State.Over.dueCount {s : State m n} (h : s.Over) : s.dueCount = 0 := by
  refine Finset.card_eq_zero.mpr (Finset.filter_eq_empty_iff.mpr fun u hu => ?_)
  obtain ⟨hpos, hlt⟩ := Finset.mem_Ico.mp hu
  rintro ⟨_, hstatus | ⟨w, hw⟩ | ⟨c, hc⟩⟩
  · exact absurd (hstatus.symm.trans (h.terminal u hpos hlt)) (by simp)
  · rw [h.workers w] at hw
    exact absurd hw List.not_mem_nil
  · rw [h.clients c] at hc
    exact absurd hc List.not_mem_nil

/-- **One outcome each.** In an orderly run with no throwing callback and no `submit_async`, when
every submitted task is done with, the submissions are the completions, the failures that were not
retried and the cancellations together. -/
theorem outcomes_balance {as : List (Action m n)} {s : State m n}
    (run : Run step Accountable (start m n) as s) (hover : s.Over) :
    s.recorder.metrics.tasksSubmitted = u64 (s.recorder.metrics.tasksCompleted +
      (s.recorder.metrics.tasksFailed - s.recorder.metrics.tasksRetried) +
      s.recorder.metrics.tasksCancelled) := by
  have hpreserved : Preserved (step (m := m) (n := n)) Accountable Balanced :=
    fun _ _ _ h hok hstep => h.move hok (.of_step hstep)
  have h := run.invariant hpreserved balanced_start
  have howed := h.owed
  rw [hover.dueCount] at howed
  exact Metrics.submitted_of_owed _ h.submitted howed

/-- Task 1 fails once, is retried and completes; task 2, which depends on it, is cancelled when it
is ready. -/
def Schedule.mixed : List (Action 1 1) :=
  submit { maxRetries := 1 } ++ .call 0 (.submitWithDependencies {} [1]) :: client 7 ++
  .take 0 1 :: worker 6 ++ .worker 0 0 false :: worker 9 ++ .take 0 1 :: worker 13 ++ cancel 2

def mixed : State 1 1 :=
  (exec step Accountable (start 1 1) Schedule.mixed).get (by decide +kernel)

theorem outcomes_balance_mixed : mixed.recorder.metrics.tasksSubmitted =
    u64 (mixed.recorder.metrics.tasksCompleted +
      (mixed.recorder.metrics.tasksFailed - mixed.recorder.metrics.tasksRetried) +
      mixed.recorder.metrics.tasksCancelled) :=
  outcomes_balance (.of_isSome _)
    ⟨by decide +kernel, by decide +kernel, by decide +kernel, by decide +kernel⟩

/-- A task completes and is cancelled afterwards. -/
def Schedule.countedTwice : List (Action 1 1) := submit {} ++ .take 0 1 :: worker 13 ++ cancel 1

def countedTwice : State 1 1 :=
  (exec step Simple (start 1 1) Schedule.countedTwice).get (by decide +kernel)

theorem outcomes_exceed : ¬ ∀ (as : List (Action 1 1)) (s : State 1 1),
    Run step Simple (start 1 1) as s → s.Over →
      s.recorder.metrics.tasksSubmitted = u64 (s.recorder.metrics.tasksCompleted +
        (s.recorder.metrics.tasksFailed - s.recorder.metrics.tasksRetried) +
        s.recorder.metrics.tasksCancelled) := by
  intro hall
  have hover : countedTwice.Over :=
    ⟨by decide +kernel, by decide +kernel, by decide +kernel, by decide +kernel⟩
  exact absurd (hall Schedule.countedTwice countedTwice (.of_isSome _) hover) (by decide +kernel)

end Executor
end NexusTask
