import NexusTask.Executor.Order

/-!
# A task is executed once

In a run without `cancel`, without `submit_async` and whose callbacks return, a task whose function
has returned is not started again, and no task is twice in the queues and the workers' hands. This
takes more than `Undisturbed`: a retry gives up the task's flag while the worker still has it in
hand, and a function that returns too late counts as failed and is retried.
-/

set_option autoImplicit false

namespace NexusTask
namespace Executor

open Transition

variable {m n : Nat}

/-! ## The condition -/

def NotAsync : Action m n → Prop
  | .call _ (.submitAsync _ _) => False
  | _ => True

/-- The user's callback returns, if this step runs one. -/
def CallbackReturns (s : State m n) : Action m n → Prop
  | .worker w _ ok =>
    match s.workers w with
    | .busy .callback _ => ok = true
    | _ => True
  | _ => True

/-- What the runs below are about: no `cancel`, no `submit_async`, no throwing callback. -/
structure Plain (s : State m n) (a : Action m n) : Prop where
  noCancel : NotCancel a
  noAsync : NotAsync a
  callback : CallbackReturns s a

/-- A submission or the scheduler marks no task that a worker still has in hand. -/
def MarkUnheld (s : State m n) (a : Action m n) : Prop :=
  match a with
  | .worker _ _ _ => True
  | _ => ∀ t ∈ s.markTarget a, (s.graph.task t).enqueued = false → ∀ w, t ∉ (s.workers w).hand

/-- A function that returns only after its timeout leaves no retry. -/
def OverrunLast (s : State m n) : Action m n → Prop
  | .worker w now true =>
    match s.workers w with
    | .busy .inFunction t =>
      (s.graph.task t).overran now = true → (s.graph.task t).retriesLeft = false
    | _ => True
  | _ => True

structure Secluded (s : State m n) (a : Action m n) : Prop where
  plain : Plain s a
  poll : PollComplete s a
  mark : MarkFresh s a
  unheld : MarkUnheld s a
  overrun : OverrunLast s a

instance : (a : Action m n) → Decidable (NotAsync a)
  | .call _ (.submitAsync _ _) => .isFalse id
  | .call _ (.submit _) | .call _ (.submitWithDependencies _ _) | .call _ (.cancel _)
  | .call _ .waitForCompletion | .client _ _ | .poll _ | .scheduler | .take _ _
  | .worker _ _ _ => .isTrue trivial

instance (s : State m n) (a : Action m n) : Decidable (CallbackReturns s a) := by
  unfold CallbackReturns
  split
  · split <;> infer_instance
  · infer_instance

instance (s : State m n) (a : Action m n) : Decidable (MarkUnheld s a) := by
  unfold MarkUnheld
  split <;> infer_instance

instance (s : State m n) (a : Action m n) : Decidable (OverrunLast s a) := by
  unfold OverrunLast
  split
  · split <;> infer_instance
  · infer_instance

instance (s : State m n) (a : Action m n) : Decidable (Plain s a) :=
  decidable_of_iff (NotCancel a ∧ NotAsync a ∧ CallbackReturns s a)
    ⟨fun ⟨h₁, h₂, h₃⟩ => ⟨h₁, h₂, h₃⟩, fun ⟨h₁, h₂, h₃⟩ => ⟨h₁, h₂, h₃⟩⟩

instance (s : State m n) (a : Action m n) : Decidable (Secluded s a) :=
  decidable_of_iff
    (Plain s a ∧ PollComplete s a ∧ MarkFresh s a ∧ MarkUnheld s a ∧ OverrunLast s a)
    ⟨fun ⟨h₁, h₂, h₃, h₄, h₅⟩ => ⟨h₁, h₂, h₃, h₄, h₅⟩,
      fun ⟨h₁, h₂, h₃, h₄, h₅⟩ => ⟨h₁, h₂, h₃, h₄, h₅⟩⟩

theorem Secluded.undisturbed {s : State m n} {a : Action m n} (h : Secluded s a) :
    Undisturbed s a := ⟨h.plain.noCancel, h.poll, h.mark⟩

/-! ## No promises -/

/-- In `submit_async`, up to `register_promise`. -/
def ClientPc.async : ClientPc → Bool
  | .newTask _ _ async => async
  | .register _ _ => true
  | _ => false

/-- Nothing was submitted with `submit_async`. -/
structure Synchronous (s : State m n) : Prop where
  clients : ∀ c, (s.clients c).async = false
  tasks : ∀ u, (s.graph.task u).wrapsPromise = false
  table : s.promises.table = []

theorem synchronous_start : Synchronous (start m n) := ⟨fun _ => rfl, fun _ => rfl, rfl⟩

namespace Synchronous

variable {s t : State m n} {a : Action m n}

theorem clients_move (h : Synchronous s) (ha : NotAsync a) (hm : Move s a t) (c : Fin m) :
    (t.clients c).async = false := by
  have hc := h.clients c
  rcases hm.clientMove c with hsame | hmove
  · rw [hsame]
    exact hc
  · generalize s.clients c = pc, t.clients c = pc' at hmove hc
    cases hmove with
    | @call op d act =>
      subst act
      cases op with
      | submitAsync options deps => exact absurd ha id
      | _ => rfl
    | quiet hstep =>
      cases hstep with
      | recordAsync hw => exact absurd ((h.tasks _).symm.trans hw) (by simp)
      | _ => rfl
    | _ => rfl

theorem tasks_move (h : Synchronous s) (hm : Move s a t) (u : TaskId) :
    (t.graph.task u).wrapsPromise = false := by
  rcases hm.fixed (·.wrapsPromise) (u := u) (fun _ _ _ _ _ _ _ _ _ _ => rfl) with
    hsame | ⟨rfl, c, deps, options, async, now, old, hnew⟩
  · exact hsame.trans (h.tasks u)
  · have hasync := h.clients c
    rw [old] at hasync
    rw [hnew]
    exact hasync

theorem table_move (h : Synchronous s) (hm : Move s a t) : t.promises.table = [] := by
  cases hm with
  | @client c now pc hstep =>
    show ((s.clients c).promises s).table = []
    have hc := h.clients c
    cases hpc : s.clients c with
    | register x deps => exact absurd hc (by simp [hpc, ClientPc.async])
    | cancelPromise x =>
      show s.promises.table.erase x = []
      rw [h.table]
      rfl
    | _ => exact h.table
  | @line w now ok x line line' k old hline =>
    show (line.promises s x).table = []
    cases line with
    | fulfillPromise | failPromise =>
      show s.promises.table.erase x = []
      rw [h.table]
      rfl
    | _ => exact h.table
  | _ => exact h.table

theorem move (h : Synchronous s) (ha : NotAsync a) (hm : Move s a t) : Synchronous t where
  clients := h.clients_move ha hm
  tasks := h.tasks_move hm
  table := h.table_move hm

end Synchronous

/-! ## One place for every task -/

/-- A worker that has given up the flag of its task still has the task for itself. -/
def Alone (s : State m n) : Prop :=
  ∀ w u, s.workers w = .busy .remark u →
    (s.graph.task u).enqueued = false ∧ ∀ v, u ∈ (s.workers v).hand → v = w

theorem alone_start : Alone (start m n) := fun w u h => absurd h (by simp [start])

theorem WorkerPc.eq_busy_of_hand {pc : WorkerPc} {u : TaskId} (h : u ∈ pc.hand) :
    ∃ line, pc = .busy line u := by
  cases pc with
  | idle => exact absurd h List.not_mem_nil
  | busy line x => exact ⟨line, by rw [List.mem_singleton.mp h]⟩

namespace Alone

variable {s t : State m n} {a : Action m n} {u : TaskId}

/-- A task is in the hands of one worker at most. -/
theorem hand_unique (h : Alone s) (htokens : Tokens s) {v w : Fin n}
    (hv : u ∈ (s.workers v).hand) (hw : u ∈ (s.workers w).hand) : v = w := by
  obtain ⟨line, old⟩ := WorkerPc.eq_busy_of_hand hv
  obtain ⟨line', old'⟩ := WorkerPc.eq_busy_of_hand hw
  by_cases hremark : line = .remark
  · subst hremark
    exact ((h v u old).2 w hw).symm
  · by_cases hremark' : line' = .remark
    · subst hremark'
      exact (h w u old').2 v hv
    · exact htokens.holder_unique (old ▸ WorkerPc.mem_held (Line.holds_of_ne_remark hremark))
        (old' ▸ WorkerPc.mem_held (Line.holds_of_ne_remark hremark'))

/-- The task of a worker that stays at the line is left alone by the others. -/
theorem stays (h : Alone s) (hs : Sound s) (hmark : MarkUnheld s a) (hcancel : CancelUntouched s a)
    (hm : Move s a t) {w : Fin n} (old : s.workers w = .busy .remark u)
    (hsame : t.workers w = s.workers w) : (t.graph.task u).enqueued = false := by
  obtain ⟨hfree, hsole⟩ := h w u old
  have hhand : u ∈ (s.workers w).hand := by rw [old]; exact List.mem_singleton_self u
  cases hm.flags hs.known u with
  | same hc he => exact he.trans hfree
  | clear clearer hc he => exact he
  | cancel target fresh hc he => exact absurd hhand ((hcancel u target fresh).nobody w)
  | mark target free hc =>
    cases a with
    | worker v now ok =>
      -- The worker that marks the task has it in hand, so it is `w`, which has not moved.
      obtain ⟨line, hv⟩ : ∃ line, s.workers v = .busy line u := by
        cases hpc : s.workers v with
        | idle => simp_all [State.markTarget]
        | busy line x => cases line <;> simp_all [State.markTarget]
      obtain rfl := hsole v (by rw [hv]; exact List.mem_singleton_self u)
      exact absurd hsame hm.worker_ne
    | client c now => exact absurd hhand (hmark u target free w)
    | scheduler => exact absurd hhand (hmark u target free w)
    | call | poll | take => exact absurd target (by simp [State.markTarget])

theorem move (h : Alone s) (hs : Sound s) (hmark : MarkUnheld s a) (hcancel : CancelUntouched s a)
    (hm : Move s a t) : Alone t := by
  intro w u hw
  -- Everybody who has the task in hand afterwards had it before, for it was in no queue.
  have hhands : (s.graph.task u).enqueued = false → ∀ v, u ∈ (t.workers v).hand →
      u ∈ (s.workers v).hand := by
    intro hfree v hv
    rcases hm.hand hv with hold | hqueued
    · exact hold
    · exact absurd (hfree.symm.trans (hs.tokens.enqueued_of_queued hqueued)) (by simp)
  rcases hm.workerMove w with hsame | hmove
  · have old : s.workers w = .busy .remark u := hsame ▸ hw
    exact ⟨h.stays hs hmark hcancel hm old hsame,
      fun v hv => (h w u old).2 v (hhands (h w u old).1 v hv)⟩
  · generalize hold : s.workers w = pc at hmove
    rw [hw] at hmove
    cases hmove with
    | line act hline => exact absurd hline nofun
    | resetsFlag flag =>
      have hhand : u ∈ (s.workers w).hand := by rw [hold]; exact List.mem_singleton_self u
      refine ⟨flag, fun v hv => ?_⟩
      rcases hm.hand hv with holdv | hqueued
      · exact h.hand_unique hs.tokens holdv hhand
      · exact absurd (hold ▸ WorkerPc.mem_held rfl)
          (hs.tokens.not_held_of_awaited (.inl hqueued) w)

/-- **One place.** -/
theorem place_le_one (h : Alone s) (hs : Sound s) (u : TaskId) :
    s.queued.count u + tally (WorkerPc.hand ∘ s.workers) u ≤ 1 := by
  have hhands : tally (WorkerPc.hand ∘ s.workers) u ≤ 1 := by
    refine tally_le_one (fun w => ?_) fun v w => h.hand_unique hs.tokens
    rw [Function.comp_apply]
    cases s.workers w with
    | idle => exact Nat.zero_le _
    | busy line x => exact List.count_le_length
  have hqueued : s.queued.count u ≤ 1 := by
    have hcopies := hs.tokens.copies u
    have hflag := s.flag_le u
    unfold State.copies at hcopies
    omega
  by_cases hmem : u ∈ s.queued
  · -- A queued task is in no worker's hands, not even at the one line without the flag.
    have hnone : tally (WorkerPc.hand ∘ s.workers) u = 0 := by
      refine tally_eq_zero_of_notMem fun w hw => ?_
      obtain ⟨line, old⟩ := WorkerPc.eq_busy_of_hand hw
      by_cases hremark : line = .remark
      · subst hremark
        exact absurd ((h w u old).1.symm.trans (hs.tokens.enqueued_of_queued hmem)) (by simp)
      · exact hs.tokens.not_held_of_awaited (.inl hmem) w
          (old ▸ WorkerPc.mem_held (Line.holds_of_ne_remark hremark))
    omega
  · have hzero := List.count_eq_zero.mpr hmem
    omega

end Alone

/-! ## After the function has returned -/

/-- The lines behind a function that has returned, for a task that is not retried. -/
def Line.Spent (k : Task) : Line → Prop
  | .storeCompleted | .onSuccess | .callback | .fulfillPromise | .failPromise | .notify | .clear =>
    True
  | .storeFailed | .catchAll | .onFailure | .testCancelled | .testRetries => k.retriesLeft = false
  | _ => False

structure Returned (s : State m n) (u : TaskId) : Prop where
  begun : (s.graph.task u).status.isWaiting = false
  workers : ∀ w line, s.workers w = .busy line u → line.Spent (s.graph.task u)

/-- What is recorded of the functions that have returned. -/
def Spent (s : State m n) : Prop := ∀ u ∈ s.returned, Returned s u

theorem LineStep.spent {s : State m n} {u : TaskId} {now : Int} {ok : Bool} {k : Task}
    {line line' : Line} (h : LineStep s u now ok line line' k) (hs : Synchronous s)
    (hcallback : line = .callback → ok = true) (hspent : line.Spent (s.graph.task u)) :
    line'.Spent k := by
  cases h with
  | storeFailed => exact hspent
  | catchAll => exact hspent
  | storeCompleted => trivial
  | completion => trivial
  | wrapped hw => exact absurd ((hs.tasks u).symm.trans hw) (by simp)
  | plain hw => trivial
  | callbackRaised hraised => exact absurd (hraised.symm.trans (hcallback rfl)) (by simp)
  | registered hmem => exact absurd (hs.table ▸ hmem) List.not_mem_nil
  | unregistered hmem => trivial
  | failure => exact hspent
  | noRetryCancelled hc => trivial
  | retryUncancelled hc => exact hspent
  | retry hr => exact absurd (hr.symm.trans hspent) (by simp)
  | noRetry hr => trivial
  | failRegistered hmem => exact absurd (hs.table ▸ hmem) List.not_mem_nil
  | failUnregistered hmem => trivial
  | _ => exact absurd hspent id

theorem LineStep.begun_of_spent {s : State m n} {u : TaskId} {now : Int} {ok : Bool} {k : Task}
    {line line' : Line} (h : LineStep s u now ok line line' k)
    (hspent : line.Spent (s.graph.task u)) (hu : (s.graph.task u).status.isWaiting = false) :
    k.status.isWaiting = false := by
  cases h with
  | storeFailed | catchAll | storeCompleted => rfl
  | storeCancelled | storeRunning | countAttempt | returned | overran | resetStatus =>
    exact absurd hspent id
  | _ => exact hu

theorem Line.Spent.congr {k k' : Task} {line : Line} (h : line.Spent k)
    (hr : k'.retriesLeft = k.retriesLeft) : line.Spent k' := by
  cases line <;> first | trivial | exact absurd h id | exact hr.trans h

/-- What holds of the executor in every secluded run. -/
structure Isolated (s : State m n) : Prop where
  order : InOrder s
  sync : Synchronous s
  alone : Alone s
  spent : Spent s

namespace Isolated

variable {s t : State m n} {a : Action m n} {u : TaskId}

theorem begun_move (h : Isolated s) (hm : Move s a t) (hu : Returned s u) :
    (t.graph.task u).status.isWaiting = false := by
  cases hm.phase u with
  | same status canRetry => rw [status]; exact hu.begun
  | born new status =>
    exact absurd new (Nat.ne_of_lt (h.order.sound.known.launched_lt (.begun hu.begun)))
  | line act old hline next => exact hline.begun_of_spent (hu.workers _ _ old) hu.begun
  | cancelFlag target fresh status => exact absurd target h.order.uncancelled.not_target
  | @cancelStatus c old next status =>
    exact absurd (h.order.uncancelled.clients c) (by simp [old, ClientPc.cancels])
  | notified pos status =>
    have hsettled := h.order.sound.launch.settled u (.begun hu.begun)
    exact absurd pos (Int.not_lt.mpr hsettled.count)

theorem workers_move (h : Isolated s) (hok : Secluded s a) (hm : Move s a t) (ht : InOrder t)
    (hu : Returned s u) {w : Fin n} {line : Line} (hw : t.workers w = .busy line u) :
    line.Spent (t.graph.task u) := by
  have horderly := h.order.orderly hok.undisturbed
  rcases hm.workerMove w with hsame | hmove
  · have old : s.workers w = .busy line u := hsame ▸ hw
    have hspent := hu.workers w line old
    have hremark : line ≠ .remark := by
      rintro rfl
      exact hspent
    obtain ⟨_, canRetry⟩ := h.order.sound.held_frame horderly.cancel hm old
      (Line.holds_of_ne_remark hremark) fun now ok line' next hline => by
        obtain ⟨rfl, _⟩ := WorkerPc.busy.inj (hw.symm.trans next)
        exact hline.ne rfl
    rw [Task.canRetry_of_uncancelled (ht.uncancelled.tasks u),
      Task.canRetry_of_uncancelled (h.order.uncancelled.tasks u)] at canRetry
    exact hspent.congr canRetry
  · generalize hold : s.workers w = pc at hmove
    rw [hw] at hmove
    cases hmove with
    | takes mem =>
      have hwaiting := h.order.sound.phase.awaited u (.inl mem)
      exact absurd (hu.begun.symm.trans hwaiting) (by simp)
    | @line now ok _ line₁ _ act hline =>
      refine hline.spent h.sync (fun hcallback => ?_) (hu.workers w _ hold)
      subst hcallback
      have hreturns := hok.plain.callback
      rw [act] at hreturns
      simpa [CallbackReturns, hold] using hreturns
    | notifies => trivial
    | resetsFlag => exact absurd (hu.workers w _ hold) id
    | remarks => exact absurd (hu.workers w _ hold) id

/-- A function returns: the worker has the task for itself, and goes on behind the function. -/
theorem returned_move (h : Isolated s) (hok : Secluded s a) (ht : InOrder t) (halone : Alone t)
    {w : Fin n} {now : Int} {ok : Bool} {line' : Line} (act : a = .worker w now ok)
    (old : s.workers w = .busy .inFunction u) (next : t.workers w = .busy line' u)
    (hne : line' ≠ .catchAll) (hline : LineStep s u now ok .inFunction line' (t.graph.task u)) :
    Returned t u := by
  have hrunning : (s.graph.task u).status = .running :=
    h.order.sound.phase.workers w .inFunction u old
  have hspent : line'.Spent (t.graph.task u) ∧ (t.graph.task u).status = .running := by
    have hoverrun := hok.overrun
    rw [act] at hoverrun
    generalize t.graph.task u = k at hline
    cases hline with
    | returned hin => exact ⟨trivial, hrunning⟩
    | overran hokay hlate =>
      subst hokay
      have hlast : (s.graph.task u).retriesLeft = false := by
        simp only [OverrunLast, old] at hoverrun
        exact hoverrun hlate
      exact ⟨hlast, hrunning⟩
    | thrown => exact absurd rfl hne
  refine ⟨by rw [hspent.2]; rfl, fun v line hv => ?_⟩
  obtain rfl := halone.hand_unique ht.sound.tokens (u := u)
    (by rw [hv]; exact List.mem_singleton_self u) (by rw [next]; exact List.mem_singleton_self u)
  obtain ⟨rfl, _⟩ := WorkerPc.busy.inj (hv.symm.trans next)
  exact hspent.1

theorem move (h : Isolated s) (hok : Secluded s a) (hm : Move s a t) : Isolated t := by
  have ht := h.order.move hok.undisturbed hm
  have halone := h.alone.move h.order.sound hok.unheld (h.order.orderly hok.undisturbed).cancel hm
  refine ⟨ht, h.sync.move hok.plain.noAsync hm, halone, fun u hu => ?_⟩
  rcases hm.returned with hsame | ⟨w, now, ok, x, line', act, old, next, hne, hline, hnew⟩
  · have hold := h.spent u (hsame ▸ hu)
    exact ⟨h.begun_move hm hold, fun w line => h.workers_move hok hm ht hold⟩
  · rw [hnew] at hu
    rcases List.mem_append.mp hu with hmem | hlast
    · have hold := h.spent u hmem
      exact ⟨h.begun_move hm hold, fun w line => h.workers_move hok hm ht hold⟩
    · obtain rfl := List.mem_singleton.mp hlast
      exact h.returned_move hok ht halone act old next hne hline

end Isolated

theorem isolated_start : Isolated (start m n) :=
  ⟨inOrder_start, synchronous_start, alone_start, fun u hu => absurd hu (by simp [start])⟩

/-- A submission that fails once is retried and then returns. -/
def Schedule.retried : List (Action 1 1) :=
  submit { maxRetries := 1 } ++ .take 0 1 :: worker 6 ++ .worker 0 0 false :: worker 9 ++
    .take 0 1 :: worker 9

/-- The submission has found the task ready and unmarked; before it marks it, the scheduler does,
and the worker executes the task to its end. -/
def Schedule.staleMark : List (Action 1 1) :=
  .call 0 (.submit {}) :: client 7 ++ poll 1 ++ .take 0 1 :: worker 13 ++ client 2 ++
    .take 0 1 :: worker 5

/-- Task 1 about to be started again. -/
def startedAgain : State 1 1 :=
  (exec step Plain (start 1 1) Schedule.staleMark).get (by decide +kernel)

end Executor
end NexusTask
