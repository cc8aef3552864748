import NexusTask.Executor.Launch

/-!
# Where a task is and what its status says

`Line.Permits` gives the statuses a task can have while a worker stands at a given line with it.
`Phase` says that every worker finds its task so, and that a task somebody is about to enqueue, or
that is in a queue, is still waiting. That the threads around a worker leave its task alone is what
`Tokens` and `Launch` are for.
-/

set_option autoImplicit false

namespace NexusTask
namespace Executor

open Transition

variable {m n : Nat}

/-- The statuses of a task a worker stands at a line with. -/
def Line.Permits (k : Task) : Line → Prop
  | .onStart | .loadCancelled | .storeRunning => k.status.isWaiting = true
  -- A cancelled task is with no worker.
  | .storeCancelled => False
  | .countAttempt | .testDeadline | .callFunction | .inFunction | .storeFailed | .storeCompleted =>
    k.status = .running
  | .catchAll => k.status = .running ∨ k.status = .failed
  | .onSuccess | .callback | .setCallbackValue | .fulfillPromise | .setValue =>
    k.status = .completed
  | .onFailure | .testCancelled | .testRetries | .recordRetry | .resetStatus =>
    k.status = .completed ∨ k.status = .failed
  | .failPromise | .setException | .notify | .clear | .terminated => k.Finished
  | .resetFlag | .resubmit => k.status.isWaiting = true
  -- Between clearing the flag and setting it again the worker does not have the task for itself.
  | .remark => True

theorem Line.Permits.congr {k k' : Task} {line : Line} (h : line.Permits k)
    (hs : k'.status = k.status) (hr : k'.canRetry = k.canRetry) : line.Permits k' := by
  cases line <;> simp_all [Line.Permits, Task.Finished]

theorem LineStep.permits {s : State m n} {u : TaskId} {now : Int} {ok : Bool} {k : Task}
    {line line' : Line} (h : LineStep s u now ok line line' k)
    (hc : (s.graph.task u).cancelled = false) (hk : line.Permits (s.graph.task u)) :
    line'.Permits k := by
  cases h with
  | cancelled hcancelled => exact absurd (hc.symm.trans hcancelled) (by simp)
  | noRetryCancelled hcancelled => exact absurd (hc.symm.trans hcancelled) (by simp)
  | noRetry hr =>
    -- Completed comes here only when the callback has thrown.
    cases hk with
    | inl hcompleted => exact .inl hcompleted
    | inr hfailed => exact .inr ⟨hfailed, by simp [Task.canRetry, hr]⟩
  | unregistered => exact .inl hk
  | value => exact .inl hk
  | valueRaised => exact .inl hk
  | callbackRaised => exact .inl hk
  | callbackValueRaised => exact .inl hk
  | _ => first | exact hk | simp_all [Line.Permits, TaskStatus.isWaiting]

theorem LineStep.ne {s : State m n} {u : TaskId} {now : Int} {ok : Bool} {k : Task}
    {line line' : Line} (h : LineStep s u now ok line line' k) : line ≠ line' := by
  cases h <;> simp

namespace State

/-- Somebody is about to enqueue the task, or it is in a queue. -/
def Awaited (s : State m n) (u : TaskId) : Prop :=
  u ∈ s.queued ∨ (∃ c, u ∈ (s.clients c).marked) ∨ u ∈ s.scheduler.marked

end State

namespace Tokens

variable {s t : State m n} {a : Action m n} {u : TaskId}

theorem awaited_pos (hu : s.Awaited u) :
    0 < s.queued.count u + tally (ClientPc.marked ∘ s.clients) u + s.scheduler.marked.count u := by
  rcases hu with hqueued | ⟨c, hc⟩ | hscheduler
  · have hpos := List.count_pos_iff.mpr hqueued
    omega
  · have hle := le_tally (ClientPc.marked ∘ s.clients) c u
    have hpos : 0 < ((ClientPc.marked ∘ s.clients) c).count u := List.count_pos_iff.mpr hc
    omega
  · have hpos := List.count_pos_iff.mpr hscheduler
    omega

theorem enqueued_of_awaited (h : Tokens s) (hu : s.Awaited u) :
    (s.graph.task u).enqueued = true := by
  apply h.enqueued_of_pos
  have hpos := awaited_pos hu
  unfold State.copies
  omega

theorem enqueued_of_held (h : Tokens s) {w : Fin n} (hw : u ∈ (s.workers w).held) :
    (s.graph.task u).enqueued = true := by
  apply h.enqueued_of_pos
  exact Nat.lt_of_lt_of_le (List.count_pos_iff.mpr hw) (s.count_held_le u w)

/-- A task is with one worker at most. -/
theorem holder_unique (h : Tokens s) {v w : Fin n} (hv : u ∈ (s.workers v).held)
    (hw : u ∈ (s.workers w).held) : v = w := by
  by_contra hne
  have hle := add_le_tally (WorkerPc.held ∘ s.workers) hne u
  have hposv : 0 < ((WorkerPc.held ∘ s.workers) v).count u := List.count_pos_iff.mpr hv
  have hposw : 0 < ((WorkerPc.held ∘ s.workers) w).count u := List.count_pos_iff.mpr hw
  have hcopies := h.copies u
  have hflag := s.flag_le u
  unfold State.copies at hcopies
  omega

theorem not_held_of_awaited (h : Tokens s) (hu : s.Awaited u) (w : Fin n) :
    u ∉ (s.workers w).held := by
  intro hw
  have hle := le_tally (WorkerPc.held ∘ s.workers) w u
  have hposw : 0 < ((WorkerPc.held ∘ s.workers) w).count u := List.count_pos_iff.mpr hw
  have hpos := awaited_pos hu
  have hcopies := h.copies u
  have hflag := s.flag_le u
  unfold State.copies at hcopies
  omega

/-- A task whose flag is set has not been cancelled. -/
theorem not_cancelled (h : Tokens s) (hu : (s.graph.task u).enqueued = true) :
    (s.graph.task u).cancelled = false := by
  by_contra hc
  have hfree := h.untaken u (Bool.eq_true_of_not_eq_false hc)
  exact absurd (hu.symm.trans hfree) (by simp)

end Tokens

theorem WorkerPc.mem_held {line : Line} {u : TaskId} (h : line.holds = true) :
    u ∈ (WorkerPc.busy line u).held := by simp [h]

theorem Line.holds_of_ne_remark {line : Line} (h : line ≠ .remark) : line.holds = true := by
  simpa [Line.holds] using h

namespace Move

variable {s t : State m n} {a : Action m n} {u : TaskId}

/-- A task gets to be awaited by being marked. -/
theorem awaited (hm : Move s a t) (hu : t.Awaited u) :
    s.Awaited u ∨ (u ∈ s.markTarget a ∧ (s.graph.task u).enqueued = false) ∨
      ∃ w, s.workers w = .busy .resubmit u := by
  rcases hu with hqueued | ⟨c, hc⟩ | hscheduler
  · rcases hm.queued hqueued with hold | hclient | hsched | hworker
    · exact .inl (.inl hold)
    · exact .inl (.inr (.inl hclient))
    · exact .inl (.inr (.inr hsched))
    · exact .inr (.inr hworker)
  · rcases hm.clientMove c with hsame | hmove
    · exact .inl (.inr (.inl ⟨c, hsame ▸ hc⟩))
    · generalize s.clients c = pc, t.clients c = pc' at hmove hc
      cases hmove with
      | call => exact absurd (Call.entry_marked _ ▸ hc) List.not_mem_nil
      | quiet h => exact absurd (h.marked.2 ▸ hc) List.not_mem_nil
      | marks target free =>
        obtain rfl := List.mem_singleton.mp hc
        exact .inr (.inl ⟨target, free⟩)
      | _ => exact absurd hc (by simp)
  · cases hm with
    | schedulerMarks old free =>
      obtain rfl := List.mem_singleton.mp hscheduler
      exact .inr (.inl ⟨by simp [State.markTarget, old], free⟩)
    | polls | schedulerRests | schedulerLoses | schedulerEnqueues =>
      exact absurd hscheduler (by simp [State.setScheduler])
    | _ => exact .inl (.inr (.inr hscheduler))

end Move

/-! ## The invariant -/

structure Phase (s : State m n) : Prop where
  awaited : ∀ u, s.Awaited u → (s.graph.task u).status.isWaiting = true
  workers : ∀ w line u, s.workers w = .busy line u → line.Permits (s.graph.task u)
  /-- A `cancel` that has set the flag finds the status still unchanged. -/
  cancelling : ∀ c u, s.clients c = .cancelStatus u → (s.graph.task u).status.isWaiting = true
  canceller : ∀ c d, ∀ u ∈ (s.clients c).cancelled, u ∈ (s.clients d).cancelled → c = d

theorem phase_start : Phase (start m n) where
  awaited u _ := rfl
  workers w line u h := absurd h (by simp [start])
  cancelling c u h := rfl
  canceller c d u hu := absurd hu (by simp [start])

/-- What holds of the executor in every orderly run. -/
structure Sound (s : State m n) : Prop where
  known : Known s
  tokens : Tokens s
  launch : Launch s
  phase : Phase s

namespace Sound

variable {s t : State m n} {a : Action m n} {u : TaskId}

/-- The status of a task a worker has changes only when the worker changes it. -/
theorem held_frame (h : Sound s) (hcancel : CancelUntouched s a) (hm : Move s a t) {w : Fin n}
    {line : Line} (old : s.workers w = .busy line u) (hline : line.holds = true)
    (hstill : ∀ now ok line', t.workers w = .busy line' u →
      ¬ LineStep s u now ok line line' (t.graph.task u)) :
    (t.graph.task u).status = (s.graph.task u).status ∧
      (t.graph.task u).canRetry = (s.graph.task u).canRetry := by
  have hheld : u ∈ (s.workers w).held := old ▸ WorkerPc.mem_held hline
  have henqueued := h.tokens.enqueued_of_held hheld
  cases hm.phase u with
  | same status canRetry => exact ⟨status, canRetry⟩
  | born new status => exact absurd new (Nat.ne_of_lt (h.known.worker_lt old))
  | @line v now ok line₁ line₂ act oldv hv next =>
    obtain rfl : w = v := h.tokens.holder_unique hheld (oldv ▸ WorkerPc.mem_held hv.holds.1)
    obtain ⟨rfl, _⟩ := WorkerPc.busy.inj (old.symm.trans oldv)
    exact absurd hv (hstill now ok line₂ next)
  | cancelFlag target fresh status =>
    exact absurd (henqueued.symm.trans (hcancel u target fresh).free) (by simp)
  | @cancelStatus c oldc next status =>
    have hcancelled := h.tokens.cancelled c u (by rw [oldc]; exact List.mem_singleton_self u)
    exact absurd (henqueued.symm.trans (h.tokens.untaken u hcancelled)) (by simp)
  | notified pos status =>
    have hsettled := h.launch.settled u (.enqueued henqueued)
    exact absurd pos (Int.not_lt.mpr hsettled.count)

/-- A waiting task that no worker has goes on waiting. -/
theorem waiting_frame (h : Sound s) (hm : Move s a t) (hlt : u < s.nextTaskId)
    (hwaiting : (s.graph.task u).status.isWaiting = true) (hnobody : ∀ w, u ∉ (s.workers w).held)
    (hfresh : (s.graph.task u).cancelled = false) : (t.graph.task u).status.isWaiting = true := by
  cases hm.phase u with
  | same status canRetry => rw [status]; exact hwaiting
  | born new status => exact absurd new (Nat.ne_of_lt hlt)
  | @line v now ok line₁ line₂ act oldv hv next =>
    exact absurd (oldv ▸ WorkerPc.mem_held hv.holds.1) (hnobody v)
  | cancelFlag target fresh status => rw [status]; exact hwaiting
  | @cancelStatus c oldc next status =>
    have hcancelled := h.tokens.cancelled c u (by rw [oldc]; exact List.mem_singleton_self u)
    exact absurd (hfresh.symm.trans hcancelled) (by simp)
  | notified pos status => rw [status]; rfl

/-- A task just marked is waiting. -/
theorem marked_waiting (h : Sound s) (hmark : MarkFresh s a) (hm : Move s a t)
    (target : u ∈ s.markTarget a) (free : (s.graph.task u).enqueued = false) :
    (t.graph.task u).status.isWaiting = true := by
  obtain ⟨hwaiting, hfresh⟩ := hmark u target free
  refine h.waiting_frame hm (h.known.launched_lt (State.launched_of_markTarget target)) hwaiting
    (fun w hw => ?_) hfresh
  exact absurd (free.symm.trans (h.tokens.enqueued_of_held hw)) (by simp)

theorem awaited_frame (h : Sound s) (hm : Move s a t) (hu : s.Awaited u) :
    (t.graph.task u).status.isWaiting = true := by
  have henqueued := h.tokens.enqueued_of_awaited hu
  exact h.waiting_frame hm (h.known.launched_lt (.enqueued henqueued)) (h.phase.awaited u hu)
    (h.tokens.not_held_of_awaited hu) (h.tokens.not_cancelled henqueued)

theorem awaited_move (h : Sound s) (hok : Orderly s a) (hm : Move s a t) (hu : t.Awaited u) :
    (t.graph.task u).status.isWaiting = true := by
  rcases hm.awaited hu with hold | ⟨target, free⟩ | ⟨w, old⟩
  · exact h.awaited_frame hm hold
  · exact h.marked_waiting hok.mark hm target free
  · rw [(h.held_frame hok.cancel hm old rfl fun _ _ _ _ => nofun).1]
    exact h.phase.workers w .resubmit u old

theorem workers_move (h : Sound s) (hok : Orderly s a) (hm : Move s a t) {w : Fin n} {line : Line}
    (hw : t.workers w = .busy line u) : line.Permits (t.graph.task u) := by
  rcases hm.workerMove w with hsame | hmove
  · have old : s.workers w = .busy line u := hsame ▸ hw
    by_cases hremark : line = .remark
    · subst hremark
      trivial
    · obtain ⟨status, canRetry⟩ := h.held_frame hok.cancel hm old
        (Line.holds_of_ne_remark hremark) fun now ok line' next hline => by
          obtain ⟨rfl, _⟩ := WorkerPc.busy.inj (hw.symm.trans next)
          exact hline.ne rfl
      exact (h.phase.workers w line u old).congr status canRetry
  · generalize hold : s.workers w = pc at hmove
    rw [hw] at hmove
    cases hmove with
    | takes mem => exact h.awaited_frame hm (.inl mem)
    | line act hline =>
      refine hline.permits ?_ (h.phase.workers w _ u hold)
      exact h.tokens.not_cancelled
        (h.tokens.enqueued_of_held (hold ▸ WorkerPc.mem_held hline.holds.1))
    | notifies =>
      obtain ⟨status, canRetry⟩ := h.held_frame hok.cancel hm hold rfl fun _ _ _ _ => nofun
      exact (h.phase.workers w .notify u hold).congr status canRetry
    | resetsFlag => trivial
    | remarks target free => exact h.marked_waiting hok.mark hm target free

theorem cancelling_move (h : Sound s) (hok : Orderly s a) (hm : Move s a t) {c : Fin m}
    (hc : t.clients c = .cancelStatus u) : (t.graph.task u).status.isWaiting = true := by
  rcases hm.clientMove c with hsame | hmove
  · have old : s.clients c = .cancelStatus u := hsame ▸ hc
    have hwaiting := h.phase.cancelling c u old
    have hmem : u ∈ (s.clients c).cancelled := by rw [old]; exact List.mem_singleton_self u
    have hcancelled := h.tokens.cancelled c u hmem
    cases hm.phase u with
    | same status canRetry => rw [status]; exact hwaiting
    | born new status =>
      exact absurd new (Nat.ne_of_lt (h.known.launched_lt (.cancelled hcancelled)))
    | @line v now ok line₁ line₂ act oldv hv next =>
      have henqueued := h.tokens.enqueued_of_held (oldv ▸ WorkerPc.mem_held hv.holds.1)
      exact absurd (hcancelled.symm.trans (h.tokens.not_cancelled henqueued)) (by simp)
    | cancelFlag target fresh status => rw [status]; exact hwaiting
    | @cancelStatus d oldd next status =>
      have hmemd : u ∈ (s.clients d).cancelled := by rw [oldd]; exact List.mem_singleton_self u
      obtain rfl := h.phase.canceller c d u hmem hmemd
      exact absurd (hc.symm.trans next) (by simp)
    | notified pos status => rw [status]; rfl
  · have hmem : u ∈ (t.clients c).cancelling := by rw [hc]; exact List.mem_singleton_self u
    generalize s.clients c = pc at hmove
    generalize t.clients c = pc' at hmove hc hmem
    cases hmove with
    | call => exact absurd (Call.entry_cancelling _ ▸ hmem) List.not_mem_nil
    | quiet hstep => subst hc; exact absurd hstep nofun
    | cancelFlag target fresh flag =>
      obtain rfl := List.mem_singleton.mp hmem
      have huntouched := hok.cancel u target fresh
      refine h.waiting_frame hm (h.known.cancelTarget_lt target) huntouched.waiting (fun w hw => ?_)
        fresh
      exact absurd (huntouched.free.symm.trans (h.tokens.enqueued_of_held hw)) (by simp)
    | _ => exact absurd hc (by simp)

theorem canceller_move (h : Sound s) (hm : Move s a t) {c d : Fin m}
    (hc : u ∈ (t.clients c).cancelled) (hd : u ∈ (t.clients d).cancelled) : c = d := by
  by_cases hcancelled : (s.graph.task u).cancelled = true
  · -- The flag was set, so nobody can take it now.
    have hold : ∀ {e : Fin m}, u ∈ (t.clients e).cancelled → u ∈ (s.clients e).cancelled := by
      intro e he
      rcases hm.cancelled he with hold | ⟨hfresh, _⟩
      · exact hold
      · exact absurd (hfresh.symm.trans hcancelled) (by simp)
    exact h.phase.canceller c d u (hold hc) (hold hd)
  · have hmoved : ∀ {e : Fin m}, u ∈ (t.clients e).cancelled → t.clients e ≠ s.clients e := by
      intro e he hsame
      exact hcancelled (h.tokens.cancelled e u (hsame ▸ he))
    exact hm.client_sole (hmoved hc) (hmoved hd)

theorem move (h : Sound s) (hok : Orderly s a) (hm : Move s a t) : Sound t where
  known := h.known.move hm
  tokens := h.tokens.move h.known hok.mark hok.cancel hm
  launch := h.launch.move h.known h.tokens hok.poll hok.cancel hm
  phase :=
    { awaited := fun _ => h.awaited_move hok hm
      workers := fun _ _ _ => h.workers_move hok hm
      cancelling := fun _ _ => h.cancelling_move hok hm
      canceller := fun _ _ _ => h.canceller_move hm }

end Sound

theorem sound_start : Sound (start m n) := ⟨known_start, tokens_start, launch_start, phase_start⟩

end Executor
end NexusTask
