import NexusTask.Executor.Decrements
import NexusTask.Executor.Entered

/-!
# A callback that throws

The user's callback runs inside the `try` of `worker_loop`, after the completion has been recorded
and before the dependents are notified. An exception in it sends a task that is Completed down the
failure path: a failure is recorded, and if a retry is left the function is started again.

`Success` says what is to be expected of a task whose function has returned in time. A callback
that throws breaks it in every run. In an orderly run nothing else does.
-/

set_option autoImplicit false

namespace NexusTask
namespace Executor

open Transition

variable {m n : Nat}

/-- The user's callback of `u` returns, if worker `w` runs it in this step. -/
def CallbackOf (u : TaskId) (w : Fin n) (s : State m n) : Action m n → Prop
  | .worker v _ ok => v = w → s.workers w = .busy .callback u → ok = true
  | _ => True

instance (u : TaskId) (w : Fin n) (s : State m n) :
    (a : Action m n) → Decidable (CallbackOf u w s a)
  | .worker v _ ok =>
    inferInstanceAs (Decidable (v = w → s.workers w = .busy .callback u → ok = true))
  | .call _ _ | .client _ _ | .poll _ | .scheduler | .take _ _ => .isTrue trivial

/-- The lines between the return of the function and the notification of the dependents. -/
def Line.succeeds : Line → Bool
  | .storeCompleted | .onSuccess | .callback | .fulfillPromise | .notify => true
  | _ => false

/-- The worker is ending the execution of `u` as a success, or has ended it. -/
def WorkerPc.OnCourse (u : TaskId) : WorkerPc → Prop
  | .busy line t => t = u ∧ (line.succeeds = true ∨ line = .clear)
  | .idle => True

/-- What is expected of `u` in every state after `s₁`, when its function has returned in time to
worker `w`. -/
structure Success (s₁ : State m n) (u : TaskId) (w : Fin n) (s : State m n) : Prop where
  /-- The function is not started again. -/
  started : s.started.count u = s₁.started.count u
  status : s.workers w = .busy .storeCompleted u ∨ (s.graph.task u).status = .completed
  /-- Nobody comes to `record_failure` or `record_retry` for it. -/
  unrecorded : ∀ v, s.workers v ≠ .busy .onFailure u ∧ s.workers v ≠ .busy .recordRetry u
  /-- `notify_task_completed` is called once, and by the time the worker lets go of the task. -/
  notified : s.notified.count u ≤ 1
  notifies : u ∉ (s.workers w).hand → s.notified.count u = 1
  /-- With it every dependent there was is notified. -/
  dependents : ∀ e ∈ s₁.edges, e.dependency = u →
    { e with decs := s.notified.count u } ∈ s.edges

/-! ## The execution -/

theorem Line.holds_of_succeeds {line : Line} (h : line.succeeds = true) : line.holds = true := by
  cases line <;> first | rfl | exact absurd h (by simp [Line.succeeds])

/-- A callback that returns leads on to the notification. -/
theorem LineStep.succeeds {s : State m n} {u : TaskId} {now : Int} {ok : Bool} {k : Task}
    {line line' : Line} (h : LineStep s u now ok line line' k) (hline : line.succeeds = true)
    (hcallback : line = .callback → ok = true) (hplain : (s.graph.task u).wrapsPromise = false)
    (htable : u ∉ s.promises.table) :
    line'.succeeds = true ∧
      (line = .storeCompleted ∨ (s.graph.task u).status = .completed → k.status = .completed) := by
  cases h with
  | storeCompleted => exact ⟨rfl, fun _ => rfl⟩
  | completion => exact ⟨rfl, fun hstatus => hstatus.resolve_left nofun⟩
  | wrapped hw => exact absurd (hplain.symm.trans hw) (by simp)
  | plain => exact ⟨rfl, fun hstatus => hstatus.resolve_left nofun⟩
  | callbackRaised hraised => exact absurd (hraised.symm.trans (hcallback rfl)) (by simp)
  | registered hmem => exact absurd hmem htable
  | unregistered => exact ⟨rfl, fun hstatus => hstatus.resolve_left nofun⟩
  | _ => exact absurd hline (by simp [Line.succeeds])

/-! ### One worker, in any run -/

/-- What holds as long as worker `w` has not ended the execution. -/
structure OnCourse (u : TaskId) (w : Fin n) (s : State m n) : Prop where
  registered : Registered s
  lt : u < s.nextTaskId
  plain : (s.graph.task u).wrapsPromise = false
  worker : (s.workers w).OnCourse u

theorem OnCourse.move {s t : State m n} {a : Action m n} {u : TaskId} {w : Fin n}
    (h : OnCourse u w s) (hbusy : s.workers w ≠ .idle) (hcallback : CallbackOf u w s a)
    (hm : Move s a t) : OnCourse u w t where
  registered := h.registered.move hm
  lt := Nat.lt_of_lt_of_le h.lt hm.nextTaskId_le
  plain := (hm.wrapsPromise_eq h.lt).trans h.plain
  worker := by
    have hcourse := h.worker
    rcases hm.workerMove w with hsame | hmove
    · rw [hsame]
      exact hcourse
    · generalize hold : s.workers w = pc, t.workers w = pc' at hmove hcourse hbusy
      cases hmove with
      | takes mem => exact absurd rfl hbusy
      | @line now ok x line line' act hstep =>
        subst act
        obtain ⟨rfl, hline | rfl⟩ := hcourse
        · have hplain := h.plain
          refine ⟨rfl, .inl (hstep.succeeds hline (fun hc => ?_) hplain
            (h.registered.notMem hplain)).1⟩
          exact hcallback rfl (hc ▸ hold)
        · exact absurd hstep nofun
      | notifies => exact ⟨hcourse.1, .inr rfl⟩
      | clears => trivial
      | remarkLoses => trivial
      | resubmits => trivial
      | resetsFlag => exact absurd hcourse.2 (by simp [Line.succeeds])
      | remarks => exact absurd hcourse.2 (by simp [Line.succeeds])

/-! ### Orderly runs -/

/-- Between the return of the function and the notification. -/
structure Ahead (s : State m n) (u : TaskId) (w : Fin n) : Prop where
  line : ∃ line, line.succeeds = true ∧ s.workers w = .busy line u ∧
    (line = .storeCompleted ∨ (s.graph.task u).status = .completed)
  unnotified : u ∉ s.notified

/-- After it. -/
structure Done (s : State m n) (u : TaskId) : Prop where
  notified : u ∈ s.notified
  status : (s.graph.task u).status = .completed

/-- What holds in an orderly run from the return of the function on, as long as the callback of the
task does not throw. -/
structure Succeeds (s₁ : State m n) (u : TaskId) (w : Fin n) (s : State m n) : Prop where
  traced : Traced s
  registered : Registered s
  ids : u ∈ s.graph.ids
  plain : (s.graph.task u).wrapsPromise = false
  started : s.started.count u = s₁.started.count u
  dependents : ∀ e ∈ s₁.edges, e.dependency = u →
    { e with decs := s.notified.count u } ∈ s.edges
  place : Ahead s u w ∨ Done s u

namespace Succeeds

variable {s₁ s t : State m n} {a : Action m n} {u : TaskId} {v w : Fin n}

/-- Whoever has the task is executing it to its end, or is done with it. -/
theorem lines (h : Succeeds s₁ u w s) {line : Line} (hv : s.workers v = .busy line u) :
    line.succeeds = true ∨ line = .clear ∨ line = .remark := by
  rcases h.place with ⟨⟨line', hline', hw, _⟩, _⟩ | hdone
  · by_cases hremark : line = .remark
    · exact .inr (.inr hremark)
    · obtain rfl := h.traced.sound.tokens.holder_unique
        (hw ▸ WorkerPc.mem_held (Line.holds_of_succeeds hline'))
        (hv ▸ WorkerPc.mem_held (Line.holds_of_ne_remark hremark))
      obtain ⟨rfl, _⟩ := WorkerPc.busy.inj (hw.symm.trans hv)
      exact .inl hline'
  · exact .inr ((h.traced.ended.concluded u hdone.notified).workers v line hv)

theorem not_cancelling (h : Succeeds s₁ u w s) (c : Fin m) : u ∉ (s.clients c).cancelling := by
  intro hc
  rcases h.place with ⟨⟨line, hline, hw, _⟩, _⟩ | hdone
  · have htokens := h.traced.sound.tokens
    have hheld : u ∈ (s.workers w).held := hw ▸ WorkerPc.mem_held (Line.holds_of_succeeds hline)
    have hfresh := htokens.not_cancelled (htokens.enqueued_of_held hheld)
    have hcancelled := htokens.cancelled c u (ClientPc.cancelled_of_cancelling hc)
    exact absurd (hfresh.symm.trans hcancelled) (by simp)
  · exact (h.traced.ended.concluded u hdone.notified).clients c hc

theorem started_move (h : Succeeds s₁ u w s) (hm : Move s a t) :
    t.started.count u = s.started.count u := by
  rcases hm.started with hsame | ⟨v, _, _, x, _, old, hnew⟩
  · rw [hsame]
  · have hne : x ≠ u := by
      rintro rfl
      exact absurd (h.lines old) (by simp [Line.succeeds])
    rw [hnew, List.count_append, List.count_singleton]
    simp [hne]

theorem dependents_move (h : Succeeds s₁ u w s) (hm : Move s a t) (e : Edge) (he : e ∈ s₁.edges)
    (hu : e.dependency = u) : { e with decs := t.notified.count u } ∈ t.edges := by
  have hle : s.notified.count u ≤ t.notified.count u := by
    rcases hm.notified with hsame | ⟨x, hnew, _⟩
    · rw [hsame]
    · rw [hnew, List.count_append]
      exact Nat.le_add_right _ _
  subst hu
  have hedge := hm.edge_notified (e := { e with decs := s.notified.count e.dependency }) h.ids
    (h.dependents e he rfl)
  simpa [Nat.add_sub_cancel' hle] using hedge

/-- The worker that has the task is the one to notify its dependents. -/
theorem notified_move (h : Succeeds s₁ u w s) (hahead : Ahead s u w) (hm : Move s a t)
    (hu : u ∈ t.notified) : t.workers w = .busy .clear u := by
  obtain ⟨line, hline, hw, _⟩ := hahead.line
  rcases hm.notified with hsame | ⟨x, hnew, hx⟩
  · exact absurd (hsame ▸ hu) hahead.unnotified
  · rw [hnew] at hu
    obtain rfl := List.mem_singleton.mp ((List.mem_append.mp hu).resolve_left hahead.unnotified)
    rcases hx with ⟨v, old, next⟩ | ⟨c, old, _⟩
    · obtain rfl := h.traced.sound.tokens.holder_unique
        (hw ▸ WorkerPc.mem_held (Line.holds_of_succeeds hline)) (old ▸ WorkerPc.mem_held rfl)
      exact next
    · exact absurd (by rw [old]; exact List.mem_singleton_self u) (h.not_cancelling c)

theorem ahead_move (h : Succeeds s₁ u w s) (hok : Orderly s a) (hcallback : CallbackOf u w s a)
    (hahead : Ahead s u w) (hm : Move s a t) : Ahead t u w ∨ Done t u := by
  obtain ⟨line, hline, hw, hstatus⟩ := hahead.line
  have hnotified := h.notified_move hahead hm
  have hframe : (∀ now ok line', t.workers w = .busy line' u →
      ¬ LineStep s u now ok line line' (t.graph.task u)) →
      (t.graph.task u).status = (s.graph.task u).status := fun hstill =>
    (h.traced.sound.held_frame hok.cancel hm hw (Line.holds_of_succeeds hline) hstill).1
  rcases hm.workerMove w with hsame | hmove
  · have hstays := hframe fun now ok line' next hstep => by
      obtain ⟨rfl, _⟩ := WorkerPc.busy.inj (hw.symm.trans (hsame.symm.trans next))
      exact hstep.ne rfl
    refine .inl ⟨⟨line, hline, hsame.trans hw, by rwa [hstays]⟩, fun hu => ?_⟩
    obtain ⟨rfl, _⟩ := WorkerPc.busy.inj (hw.symm.trans (hsame.symm.trans (hnotified hu)))
    exact absurd hline (by simp [Line.succeeds])
  · generalize hold : s.workers w = pc, hnew : t.workers w = pc' at hmove
    rw [hw] at hold
    subst hold
    cases hmove with
    | @line now ok _ _ line' act hstep =>
      subst act
      obtain ⟨hline', hcompleted⟩ := hstep.succeeds hline
        (fun hc => hcallback rfl (hc ▸ hw)) h.plain (h.registered.notMem h.plain)
      refine .inl ⟨⟨line', hline', hnew, .inr (hcompleted hstatus)⟩, fun hu => ?_⟩
      obtain ⟨rfl, _⟩ := WorkerPc.busy.inj (hnew.symm.trans (hnotified hu))
      exact absurd hline' (by simp [Line.succeeds])
    | notifies notified =>
      have hstays := hframe fun _ _ _ _ => nofun
      exact .inr ⟨notified, hstays.trans (hstatus.resolve_left nofun)⟩
    | clears | resetsFlag | remarks | remarkLoses | resubmits =>
      exact absurd hline (by simp [Line.succeeds])

theorem done_move (h : Succeeds s₁ u w s) (hdone : Done s u) (hm : Move s a t) : Done t u := by
  have hsound := h.traced.sound
  have hconcluded := h.traced.ended.concluded u hdone.notified
  refine ⟨hm.notified_keep hdone.notified, ?_⟩
  cases hm.phase u with
  | same status canRetry => rw [status, hdone.status]
  | born new status => exact absurd new (Nat.ne_of_lt (hsound.concluded_lt hconcluded))
  | line act old hline next =>
    rcases hconcluded.workers _ _ old with rfl | rfl <;> exact absurd hline nofun
  | cancelFlag target fresh status => rw [status, hdone.status]
  | @cancelStatus c old next status =>
    exact absurd (by rw [old]; exact List.mem_singleton_self u) (hconcluded.clients c)
  | notified pos status =>
    have hsettled := hsound.launch.settled u (.begun (by rw [hdone.status]; rfl))
    exact absurd pos (Int.not_lt.mpr hsettled.count)

theorem move (h : Succeeds s₁ u w s) (hok : Orderly s a) (hcallback : CallbackOf u w s a)
    (hm : Move s a t) : Succeeds s₁ u w t where
  traced := h.traced.move hok hm
  registered := h.registered.move hm
  ids := hm.ids_keep h.ids
  plain := (hm.wrapsPromise_eq (h.traced.sound.known.ids u h.ids)).trans h.plain
  started := (h.started_move hm).trans h.started
  dependents := h.dependents_move hm
  place := h.place.elim (h.ahead_move hok hcallback · hm)
    fun hdone => .inr (h.done_move hdone hm)

theorem success (h : Succeeds s₁ u w s) : Success s₁ u w s where
  started := h.started
  status := by
    rcases h.place with ⟨⟨line, _, hw, rfl | hstatus⟩, _⟩ | hdone
    · exact .inl hw
    · exact .inr hstatus
    · exact .inr hdone.status
  unrecorded v := by
    constructor
    · intro hv
      exact absurd (h.lines hv) (by simp [Line.succeeds])
    · intro hv
      exact absurd (h.lines hv) (by simp [Line.succeeds])
  notified := h.traced.ended.once u
  notifies hhand := by
    rcases h.place with ⟨⟨line, _, hw, _⟩, _⟩ | hdone
    · exact absurd (by rw [hw]; exact List.mem_singleton_self u) hhand
    · exact Nat.le_antisymm (h.traced.ended.once u) (List.count_pos_iff.mpr hdone.notified)
  dependents := h.dependents

end Succeeds

/-! ## The return of the function -/

section
variable {s s₁ : State m n} {u : TaskId} {w : Fin n} {now : Int}

theorem returned_step (hw : s.workers w = .busy .inFunction u)
    (hintime : (s.graph.task u).overran now = false)
    (hstep : step s (.worker w now true) = some s₁) :
    s₁ = ({ s with returned := s.returned ++ [u] }.modify u
      fun k => { k with endTime := some now }).goto w u .storeCompleted := by
  simp only [step, hw, lineStep, hintime] at hstep
  exact (Option.some.inj hstep).symm

theorem orderly_of_inFunction (hw : s.workers w = .busy .inFunction u) {ok : Bool} :
    Orderly s (.worker w now ok) where
  poll := trivial
  mark t ht := absurd ht (by simp [State.markTarget, hw])
  cancel t ht := absurd ht (by simp [State.cancelTarget])

/-- What holds of an orderly run before the return. -/
structure Readied (s : State m n) : Prop where
  traced : Traced s
  entered : Entered s
  registered : Registered s

theorem readied_of_run {as : List (Action m n)} (run : Run step Orderly (start m n) as s) :
    Readied s := by
  have hpreserved : Preserved (step (m := m) (n := n)) Orderly Readied := by
    intro s a t h hok hstep
    have hm := Move.of_step hstep
    exact ⟨h.traced.move hok hm, h.entered.move hm, h.registered.move hm⟩
  exact run.invariant hpreserved ⟨traced_start, entered_start, registered_start⟩

/-- A task that is being executed has not been notified for. -/
theorem Succeeds.of_returned (h : Readied s) (hw : s.workers w = .busy .inFunction u)
    (hplain : (s.graph.task u).wrapsPromise = false)
    (hintime : (s.graph.task u).overran now = false)
    (hstep : step s (.worker w now true) = some s₁) : Succeeds s₁ u w s₁ := by
  have hm := Move.of_step hstep
  have hs₁ := returned_step hw hintime hstep
  have hfirst : u ∉ s.notified := by
    intro hu
    exact absurd ((h.traced.ended.concluded u hu).workers w _ hw) (by simp)
  have hids : u ∈ s.graph.ids := h.entered.workers w u (by rw [hw]; exact List.mem_singleton_self u)
  have hnotified : s₁.notified = s.notified := by rw [hs₁]; rfl
  have hworker : s₁.workers w = .busy .storeCompleted u := by
    rw [hs₁]
    exact Function.update_self ..
  refine ⟨h.traced.move (orderly_of_inFunction hw) hm, h.registered.move hm, hm.ids_keep hids,
    (hm.wrapsPromise_eq (h.traced.sound.known.ids u hids)).trans hplain, rfl, ?_,
    .inl ⟨⟨_, rfl, hworker, .inl rfl⟩, hnotified ▸ hfirst⟩⟩
  intro e he hu
  have hcount : s₁.notified.count u = 0 := by
    rw [hnotified]
    exact List.count_eq_zero.mpr hfirst
  have hdecs : e.decs = 0 := by
    have hle := (h.traced.history.move h.traced.sound.known hm).decs e he
    rw [hu, hcount] at hle
    exact Nat.le_zero.mp hle
  rw [hcount, ← hdecs]
  exact he

theorem OnCourse.of_returned (h : Registered s) (hw : s.workers w = .busy .inFunction u)
    (hplain : (s.graph.task u).wrapsPromise = false)
    (hintime : (s.graph.task u).overran now = false)
    (hstep : step s (.worker w now true) = some s₁) : OnCourse u w s₁ := by
  have hm := Move.of_step hstep
  have hlt := h.known.worker_lt hw
  refine ⟨h.move hm, Nat.lt_of_lt_of_le hlt hm.nextTaskId_le,
    (hm.wrapsPromise_eq hlt).trans hplain, ?_⟩
  rw [returned_step hw hintime hstep]
  show (Function.update s.workers w _ w).OnCourse u
  rw [Function.update_self]
  exact ⟨rfl, .inl rfl⟩

end

/-- A step after which worker `w` is not about to record a failure was no throwing callback. -/
theorem callbackOf_of_step {s t : State m n} {a : Action m n} {u : TaskId} {w : Fin n}
    (hstep : step s a = some t) (hw : t.workers w ≠ .busy .onFailure u) : CallbackOf u w s a := by
  cases a with
  | worker v now ok =>
    rintro rfl old
    by_contra hraised
    obtain rfl : ok = false := Bool.eq_false_iff.mpr hraised
    simp only [step, old, lineStep] at hstep
    obtain rfl := Option.some.inj hstep
    exact hw (Function.update_self ..)
  | _ => trivial

namespace Schedule

/-- The function of a task that may be retried once has been started. -/
def inFunction : List (Action 1 1) := submit { maxRetries := 1 } ++ .take 0 1 :: worker 6

/-- Its callback throws, and the task is executed once more. -/
def callbackThrows : List (Action 1 1) :=
  worker 2 ++ .worker 0 0 false :: worker 8 ++ .take 0 1 :: worker 6

end Schedule

def inFunction : State 1 1 :=
  (exec step Orderly (start 1 1) Schedule.inFunction).get (by decide +kernel)

def returnedInTime : State 1 1 := (step inFunction (.worker 0 0 true)).get (by decide +kernel)

def callbackReturned : State 1 1 :=
  (exec step (fun x a => Orderly x a ∧ CallbackOf 1 0 x a) returnedInTime (Schedule.worker 6)).get
    (by decide +kernel)

def callbackThrew : State 1 1 :=
  (exec step free returnedInTime Schedule.callbackThrows).get (by decide +kernel)

end Executor
end NexusTask
