import NexusTask.Executor.Entered
import NexusTask.Executor.Order

/-!
# `cancel` and `cancel_all`

`State.cancel` is a call of `cancel` with nothing in between, as the steps of a client make it up
(`cancel_run`). Whether it takes effect depends on `cancelled_` and not on the status, so that it
takes effect on a task that has long finished.

A `TaskGroup` and a `TaskBatch` call it for one id after the other. `Listed` says what their lists
can have on them.
-/

set_option autoImplicit false

namespace NexusTask

/-- `Task::cancel`: whether it took effect, and the task after it. -/
def Task.cancel (t : Task) : Bool × Task :=
  if t.cancelled then (false, t) else (true, { t with cancelled := true, status := .cancelled })

namespace Executor

open Transition

variable {m n : Nat}

/-! ## One call -/

namespace State

variable (s : State m n) (t : TaskId)

/-- `fail_promise`: whether it returns, and the state it leaves. -/
def failPromise : Bool × State m n :=
  if t ∈ s.promises.table then (!s.satisfied t, (s.takePromise t).setPromise t .exception)
  else (true, s)

def recordCancellation : State m n :=
  s.setRecorder { s.recorder with metrics := s.recorder.metrics.recordCancellation }

/-- What `cancel` returns, `none` if an exception leaves it, and the state it leaves. -/
def cancel : Option Bool × State m n :=
  if t ∈ s.graph.ids ∧ (s.graph.task t).cancel.1 = true then
    match (s.modify t (·.cancel.2)).failPromise t with
    | (true, s) =>
      (some true, (s.recordCancellation.notify t).modify t Task.clearEnqueuedFlag)
    | (false, s) => (none, s)
  else (some false, s)

end State

/-! ### The steps of a client -/

namespace State

/-- What comes after the two stores of `Task::cancel`. -/
def finishCancel (s : State m n) (t : TaskId) : Option Bool × State m n :=
  match s.failPromise t with
  | (true, s) => (some true, (s.recordCancellation.notify t).modify t Task.clearEnqueuedFlag)
  | (false, s) => (none, s)

variable {s : State m n} {c : Fin m} {pc pc' : ClientPc}

theorem setClient_self : (s.setClient c pc).clients c = pc := Function.update_self ..

theorem setClient_setClient : (s.setClient c pc).setClient c pc' = s.setClient c pc' := by
  unfold setClient
  rw [Function.update_idem]

theorem setClient_eq_self (h : s.clients c = pc) : s.setClient c pc = s := by
  unfold setClient
  rw [← h, Function.update_eq_self]

end State

/-- What a `cancel` that ends at a line returns. -/
def ClientPc.returns : ClientPc → Option Bool
  | .cancelClear _ => some true
  | .cancelException _ => none
  | _ => some false

/-- Client `c` has called `cancel(t)` in `s`, and moved alone since then. It is at `pc` in a state
that is `x` otherwise. -/
def Cancelling (s : State m n) (c : Fin m) (t : TaskId) (now : Int) (x : State m n)
    (pc : ClientPc) : Prop :=
  ∃ k, Run step free s (.call c (.cancel t) :: List.replicate k (.client c now)) (x.setClient c pc)

namespace Cancelling

variable {s x y : State m n} {c : Fin m} {t : TaskId} {now : Int} {pc pc' : ClientPc}

theorem next (h : Cancelling s c t now x pc)
    (hstep : clientStep (x.setClient c pc) c now = some ((y.setClient c pc).setClient c pc')) :
    Cancelling s c t now y pc' := by
  obtain ⟨k, hrun⟩ := h
  refine ⟨k + 1, ?_⟩
  rw [List.replicate_succ', ← List.cons_append]
  exact .snoc hrun trivial (hstep.trans (congrArg some State.setClient_setClient))

theorem call (hc : s.clients c = .idle) : Cancelling s c t now s (.cancelGet t) :=
  ⟨0, .single trivial (if_pos hc)⟩

/-- Up to the first store. -/
theorem start (hc : s.clients c = .idle) (hids : t ∈ s.graph.ids) :
    Cancelling s c t now s (.cancelFlag t) := by
  apply (call hc).next
  simp [clientStep, State.setClient_self, hids]

/-- The two stores. -/
theorem stores (h : Cancelling s c t now s (.cancelFlag t))
    (hflag : (s.graph.task t).cancelled = false) :
    Cancelling s c t now (s.modify t (·.cancel.2)) (.cancelPromise t) := by
  have hset : Cancelling s c t now (s.modify t fun k => { k with cancelled := true })
      (.cancelStatus t) := by
    apply h.next
    simp only [clientStep, State.setClient_self, State.setClient_graph, hflag]
    rfl
  apply hset.next
  simp only [clientStep, State.setClient_self]
  simp [State.modify, State.setClient, DependencyGraph.modify, Task.cancel, hflag]

/-- The lookup in `fail_promise`. -/
theorem looks (h : Cancelling s c t now x (.cancelPromise t)) :
    Cancelling s c t now (if t ∈ x.promises.table then x.takePromise t else x)
      (if t ∈ x.promises.table then .cancelException t else .cancelRecord t) := by
  apply h.next
  simp only [clientStep, State.setClient_self]
  change (if t ∈ x.promises.table then _ else _) = _
  split <;> rfl

/-- From the record to the last line. -/
theorem ends (h : Cancelling s c t now x (.cancelRecord t)) :
    Cancelling s c t now (x.recordCancellation.notify t) (.cancelClear t) := by
  have hrecord : Cancelling s c t now x.recordCancellation (.cancelNotify t) := by
    apply h.next
    simp only [clientStep, State.setClient_self]
    rfl
  apply hrecord.next
  simp only [clientStep, State.setClient_self]
  rfl

/-- The last step. -/
theorem last (h : Cancelling s c t now x pc) (hc : y.clients c = .idle)
    (hstep : clientStep (x.setClient c pc) c now = some ((y.setClient c pc).setClient c .idle)) :
    ∃ k s', Run step free s (.call c (.cancel t) :: List.replicate k (.client c now)) s' ∧
      step s' (.client c now) = some y ∧ (s'.clients c).returns = pc.returns := by
  obtain ⟨k, hrun⟩ := h
  refine ⟨k, _, hrun, ?_, congrArg _ State.setClient_self⟩
  rw [State.setClient_setClient, State.setClient_eq_self hc] at hstep
  exact hstep

/-- The store to `enqueued_` is the last step of a `cancel` that has taken effect. -/
theorem clears (h : Cancelling s c t now x (.cancelRecord t)) (hc : x.clients c = .idle) :
    ∃ k s', Run step free s (.call c (.cancel t) :: List.replicate k (.client c now)) s' ∧
      step s' (.client c now) =
        some ((x.recordCancellation.notify t).modify t Task.clearEnqueuedFlag) ∧
      (s'.clients c).returns = some true := by
  refine h.ends.last hc ?_
  simp only [clientStep, State.setClient_self]
  rfl

/-- What comes after the two stores. -/
theorem settles (h : Cancelling s c t now x (.cancelPromise t)) (hc : x.clients c = .idle) :
    ∃ k s', Run step free s (.call c (.cancel t) :: List.replicate k (.client c now)) s' ∧
      step s' (.client c now) = some (x.finishCancel t).2 ∧
      (s'.clients c).returns = (x.finishCancel t).1 := by
  have hlooks := h.looks
  by_cases hmem : t ∈ x.promises.table
  · simp only [hmem, if_true] at hlooks
    by_cases hset : x.satisfied t = true
    · have hfinish : x.finishCancel t = (none, (x.takePromise t).setPromise t .exception) := by
        simp [State.finishCancel, State.failPromise, hmem, hset]
      rw [hfinish]
      refine hlooks.last hc ?_
      simp only [clientStep, State.setClient_self]
      change some (State.setClient _ c (if x.satisfied t = true then _ else _)) = _
      rw [if_pos hset]
      rfl
    · have hraise : Cancelling s c t now ((x.takePromise t).setPromise t .exception)
          (.cancelRecord t) := by
        apply hlooks.next
        simp only [clientStep, State.setClient_self]
        change some (State.setClient _ c (if x.satisfied t = true then _ else _)) = _
        rw [if_neg hset]
        rfl
      have hfinish : x.finishCancel t = (some true,
          (((x.takePromise t).setPromise t .exception).recordCancellation.notify t).modify t
            Task.clearEnqueuedFlag) := by
        simp [State.finishCancel, State.failPromise, hmem, hset]
      rw [hfinish]
      exact hraise.clears hc
  · simp only [hmem, if_false] at hlooks
    have hfinish : x.finishCancel t =
        (some true, (x.recordCancellation.notify t).modify t Task.clearEnqueuedFlag) := by
      simp [State.finishCancel, State.failPromise, hmem]
    rw [hfinish]
    exact hlooks.clears hc

end Cancelling

/-- **The steps make up the call.** A client that calls `cancel(t)` and moves alone comes to the
state `State.cancel` leaves, and returns what it returns. -/
theorem cancel_run {s : State m n} {c : Fin m} (hc : s.clients c = .idle) (t : TaskId) (now : Int) :
    ∃ k s', Run step free s (.call c (.cancel t) :: List.replicate k (.client c now)) s' ∧
      step s' (.client c now) = some (s.cancel t).2 ∧ (s'.clients c).returns = (s.cancel t).1 := by
  by_cases hids : t ∈ s.graph.ids
  · have hstart : Cancelling s c t now s (.cancelFlag t) := .start hc hids
    cases hflag : (s.graph.task t).cancelled with
    | true =>
      have hcancel : s.cancel t = (some false, s) := by simp [State.cancel, Task.cancel, hflag]
      rw [hcancel]
      refine hstart.last hc ?_
      simp [clientStep, State.setClient_self, hflag]
    | false =>
      have hcancel : s.cancel t = (s.modify t (·.cancel.2)).finishCancel t :=
        if_pos ⟨hids, by simp [Task.cancel, hflag]⟩
      rw [hcancel]
      exact (hstart.stores hflag).settles hc
  · have hcancel : s.cancel t = (some false, s) := by simp [State.cancel, hids]
    rw [hcancel]
    refine (Cancelling.call hc).last hc ?_
    simp [clientStep, State.setClient_self, hids]

/-! ### What it does -/

namespace State

variable {s : State m n} {t u : TaskId}

theorem failPromise_graph : (s.failPromise t).2.graph = s.graph := by
  unfold failPromise
  split <;> rfl

theorem mem_failPromise_table (h : u ∈ (s.failPromise t).2.promises.table) :
    u ∈ s.promises.table := by
  unfold failPromise at h
  split at h
  · exact List.mem_of_mem_erase h
  · exact h

theorem failPromise_of_notMem (h : t ∉ s.promises.table) : s.failPromise t = (true, s) := if_neg h

theorem cancel_of_cancelled (h : (s.graph.task t).cancelled = true) :
    s.cancel t = (some false, s) := by
  simp [cancel, Task.cancel, h]

/-- A `cancel` of a task in the graph that was not cancelled does not return false. -/
theorem cancel_fst_ne (hids : t ∈ s.graph.ids) (h : (s.graph.task t).cancelled = false) :
    (s.cancel t).1 ≠ some false := by
  have htakes : t ∈ s.graph.ids ∧ (s.graph.task t).cancel.1 = true :=
    ⟨hids, by simp [Task.cancel, h]⟩
  unfold cancel
  rw [if_pos htakes]
  split <;> simp

/-- Where no promise is registered for the task no exception leaves the call. -/
theorem cancel_fst (hids : t ∈ s.graph.ids) (hmem : t ∉ s.promises.table) :
    (s.cancel t).1 = some (!(s.graph.task t).cancelled) := by
  cases h : (s.graph.task t).cancelled with
  | true => rw [cancel_of_cancelled h]; rfl
  | false =>
    have htakes : t ∈ s.graph.ids ∧ (s.graph.task t).cancel.1 = true :=
      ⟨hids, by simp [Task.cancel, h]⟩
    have hkeeps : (s.modify t (·.cancel.2)).failPromise t = (true, s.modify t (·.cancel.2)) :=
      failPromise_of_notMem hmem
    unfold cancel
    rw [if_pos htakes, hkeeps]
    rfl

/-- What a `cancel` of another task leaves alone. -/
structure Spares (s s' : State m n) (t : TaskId) : Prop where
  ids : s'.graph.ids = s.graph.ids
  cancelled : ∀ u, u ≠ t → (s'.graph.task u).cancelled = (s.graph.task u).cancelled
  table : ∀ u ∈ s'.promises.table, u ∈ s.promises.table

theorem cancel_spares : Spares s (s.cancel t).2 t := by
  have hstores : Spares s ((s.modify t (·.cancel.2)).failPromise t).2 t := by
    refine ⟨?_, fun u hu => ?_, fun u hu => mem_failPromise_table (s := s.modify t _) hu⟩
    · rw [failPromise_graph, modify_graph, DependencyGraph.modify_ids]
    · rw [failPromise_graph, modify_of_ne hu]
  unfold cancel
  split
  · generalize (s.modify t (·.cancel.2)).failPromise t = r at hstores
    obtain ⟨kept, x⟩ := r
    cases kept with
    | false => exact hstores
    | true =>
      refine ⟨?_, fun u hu => ?_, hstores.table⟩
      · rw [← hstores.ids]
        exact notify_ids (s := x.recordCancellation)
      · rw [← hstores.cancelled u hu, modify_frame (·.cancelled) rfl]
        exact notify_frame (s := x.recordCancellation) (·.cancelled) fun _ _ _ => rfl
  · exact ⟨rfl, fun _ _ => rfl, fun _ hu => hu⟩

end State

/-! ## The calls of a group -/

namespace State

/-- `cancel_all`, in `TaskGroup` and in `TaskBatch`, with `cancelled` calls of `cancel` so far that
returned true: what it returns, `none` if an exception leaves it, and the state it leaves. -/
def cancelAll (s : State m n) (cancelled : Nat) : List TaskId → Option Nat × State m n
  | [] => (some cancelled, s)
  | t :: rest =>
    match s.cancel t with
    | (some true, s) => s.cancelAll (cancelled + 1) rest
    | (some false, s) => s.cancelAll cancelled rest
    | (none, s) => (none, s)

/-- Without promises it returns how many tasks were not cancelled before. -/
theorem cancelAll_fst {s : State m n} {k : Nat} {ids : List TaskId} (hnodup : ids.Nodup)
    (hids : ∀ t ∈ ids, t ∈ s.graph.ids) (htable : ∀ t ∈ ids, t ∉ s.promises.table) :
    (s.cancelAll k ids).1 = some (k + ids.countP fun t => !(s.graph.task t).cancelled) := by
  induction ids generalizing s k with
  | nil => rfl
  | cons t rest ih =>
    obtain ⟨hnew, hrest⟩ := List.nodup_cons.mp hnodup
    obtain ⟨ht, hidsRest⟩ := List.forall_mem_cons.mp hids
    obtain ⟨htt, htableRest⟩ := List.forall_mem_cons.mp htable
    have hspares : Spares s (s.cancel t).2 t := cancel_spares
    have hfst := cancel_fst ht htt
    generalize hr : s.cancel t = r at hspares hfst
    obtain ⟨returned, x⟩ := r
    obtain rfl : returned = some (!(s.graph.task t).cancelled) := hfst
    -- The flags of the rest are those of before the call.
    have hcount : rest.countP (fun u => !(x.graph.task u).cancelled)
        = rest.countP fun u => !(s.graph.task u).cancelled := by
      apply List.countP_congr
      intro u hu
      rw [hspares.cancelled u fun h => hnew (h ▸ hu)]
    have hafter : ∀ k, (x.cancelAll k rest).1
        = some (k + rest.countP fun u => !(s.graph.task u).cancelled) := by
      intro k
      rw [ih hrest (fun u hu => hspares.ids ▸ hidsRest u hu)
        (fun u hu hmem => htableRest u hu (hspares.table u hmem)), hcount]
    unfold cancelAll
    rw [hr, List.countP_cons]
    cases (s.graph.task t).cancelled with
    | true => exact hafter k
    | false =>
      refine (hafter (k + 1)).trans (congrArg some ?_)
      simp only [Bool.not_false, if_true]
      omega

end State

/-! ### The lists of groups and batches -/

/-- A `task_ids_`: every id on it is one that `submit` or `submit_with_dependencies` has returned,
and no id is returned twice. -/
structure Listed (s : State m n) (ids : List TaskId) : Prop where
  nodup : ids.Nodup
  mem : ∀ t ∈ ids, t ∈ s.graph.ids
  plain : ∀ t ∈ ids, (s.graph.task t).wrapsPromise = false

namespace Listed

variable {s s' : State m n} {a : Action m n} {ids : List TaskId} {u : TaskId} {c : Fin m}

/-- After construction, and after `clear`. -/
theorem nil : Listed s [] := ⟨List.nodup_nil, by simp, by simp⟩

theorem move (h : Listed s ids) (hknown : Known s) (hm : Move s a s') : Listed s' ids where
  nodup := h.nodup
  mem t ht := hm.ids_keep (h.mem t ht)
  plain t ht := by
    rw [hm.wrapsPromise_eq (hknown.ids t (h.mem t ht))]
    exact h.plain t ht

end Listed

/-- Client `c` is submitting `u` without a promise, or has done so. -/
structure Submitting (c : Fin m) (u : TaskId) (s : State m n) : Prop where
  known : Known s
  lt : u < s.nextTaskId
  plain : (s.graph.task u).wrapsPromise = false
  entering : u ∈ (s.clients c).entering ∨ u ∈ s.graph.ids

namespace Submitting

variable {s s' : State m n} {a : Action m n} {u : TaskId} {c : Fin m}

theorem move (h : Submitting c u s) (hm : Move s a s') : Submitting c u s' where
  known := h.known.move hm
  lt := Nat.lt_of_lt_of_le h.lt hm.nextTaskId_le
  plain := (hm.wrapsPromise_eq h.lt).trans h.plain
  entering := by
    rcases h.entering with hin | hids
    · rcases hm.clientMove c with hsame | hmove
      · exact .inl (hsame ▸ hin)
      · generalize s.clients c = pc, s'.clients c = pc' at hmove hin
        cases hmove with
        | @call op => exact absurd hin List.not_mem_nil
        | quiet hstep =>
          cases hstep with
          | recordAsync | record | register => exact .inl hin
          | _ => exact absurd hin List.not_mem_nil
        | addTask ids => exact .inr ((List.mem_singleton.mp hin).symm ▸ ids)
        | _ => exact absurd hin List.not_mem_nil
    · exact .inr (hm.ids_keep hids)

/-- The step that gives the submission its id. -/
theorem of_newTask {deps : List TaskId} {options : TaskOptions} {now : Int} (hknown : Known s)
    (hc : s.clients c = .newTask deps options false) (hstep : step s (.client c now) = some s') :
    Submitting c s.nextTaskId s' := by
  have hm := Move.of_step hstep
  simp only [step, clientStep, hc] at hstep
  obtain rfl := Option.some.inj hstep
  refine ⟨hknown.move hm, Nat.lt_succ_self _, ?_, .inl ?_⟩
  · rw [State.setClient_graph, State.newTask_graph, DependencyGraph.modify_self]
  · rw [State.setClient_self]
    exact List.mem_singleton_self _

end Submitting

/-- `add` and `add_with_dependencies`: what a submission returns is put on the list. -/
theorem Listed.add {s s₁ s' : State m n} {ids : List TaskId} {c : Fin m} {deps : List TaskId}
    {options : TaskOptions} {now : Int} {bs : List (Action m n)} (h : Listed s ids)
    (hknown : Known s) (hc : s.clients c = .newTask deps options false)
    (hnew : step s (.client c now) = some s₁) (rest : Run step free s₁ bs s')
    (returned : s'.clients c = .idle) : Listed s' (ids ++ [s.nextTaskId]) := by
  have hpreserved : Preserved (step (m := m) (n := n)) free
      fun x => Submitting c s.nextTaskId x ∧ Listed x ids := by
    intro x a y hx _ hstep
    have hm := Move.of_step hstep
    exact ⟨hx.1.move hm, hx.2.move hx.1.known hm⟩
  have hstart := Submitting.of_newTask hknown hc hnew
  obtain ⟨hsub, hlisted⟩ := rest.invariant hpreserved ⟨hstart, h.move hknown (.of_step hnew)⟩
  have hin : s.nextTaskId ∈ s'.graph.ids := by
    rcases hsub.entering with hin | hids
    · rw [returned] at hin
      exact absurd hin List.not_mem_nil
    · exact hids
  have hfresh : s.nextTaskId ∉ ids := fun hmem =>
    absurd (hknown.ids _ (h.mem _ hmem)) (Nat.lt_irrefl _)
  refine ⟨?_, ?_, ?_⟩
  · exact List.nodup_append.mpr ⟨h.nodup, List.nodup_singleton _, by
      intro a ha b hb hab
      exact hfresh (List.mem_singleton.mp hb ▸ hab ▸ ha)⟩
  · intro t ht
    rcases List.mem_append.mp ht with hold | hlast
    · exact hlisted.mem t hold
    · exact List.mem_singleton.mp hlast ▸ hin
  · intro t ht
    rcases List.mem_append.mp ht with hold | hlast
    · exact hlisted.plain t hold
    · exact List.mem_singleton.mp hlast ▸ hsub.plain

/-! ## Finished tasks -/

/-- The task has neither finished nor been cancelled. -/
def State.unfinished (s : State m n) (t : TaskId) : Bool :=
  !(s.graph.task t).cancelled && !decide (s.graph.task t).Finished

theorem countP_eq_countP_and_iff {α : Type} (p q : α → Bool) (l : List α) :
    l.countP p = l.countP (fun a => p a && q a) ↔ ∀ a ∈ l, p a = true → q a = true := by
  have hfilter : l.countP (fun a => p a && q a) = (l.filter p).countP q := by
    rw [List.countP_filter]
    exact List.countP_congr fun a _ => by rw [Bool.and_comm]
  rw [hfilter, List.countP_eq_length_filter, eq_comm, List.countP_eq_length]
  simp [List.mem_filter]

/-- **Exactly the cancelled ones.** In every reachable state, `cancel` of a task that has finished
returns false and leaves the state as it is exactly if `cancelled_` was set before. So `cancel_all`
returns the number of tasks on a list that had neither finished nor been cancelled exactly if the
flag is set of every task on it that has finished. -/
theorem cancel_spares_finished_iff {as : List (Action m n)} {s : State m n}
    (run : Run step free (start m n) as s) :
    (∀ t, (s.graph.task t).Finished →
      (s.cancel t = (some false, s) ↔ (s.graph.task t).cancelled = true)) ∧
    ∀ ids, Listed s ids → ((s.cancelAll 0 ids).1 = some (ids.countP s.unfinished) ↔
      ∀ t ∈ ids, (s.graph.task t).Finished → (s.graph.task t).cancelled = true) := by
  have hpreserved : Preserved (step (m := m) (n := n)) free fun s => Entered s ∧ Registered s :=
    fun _ _ _ h _ hstep => ⟨h.1.move (.of_step hstep), h.2.move (.of_step hstep)⟩
  obtain ⟨hentered, hregistered⟩ := run.invariant hpreserved ⟨entered_start, registered_start⟩
  refine ⟨fun t hfinished => ⟨fun hcancel => ?_, State.cancel_of_cancelled⟩,
    fun ids hlisted => ?_⟩
  · have hids : t ∈ s.graph.ids := by
      by_contra hout
      exact absurd (hfinished.not_waiting.symm.trans (hentered.waiting t hout)) (by simp)
    by_contra hflag
    exact State.cancel_fst_ne hids (Bool.eq_false_iff.mpr hflag) (congrArg Prod.fst hcancel)
  · rw [State.cancelAll_fst hlisted.nodup hlisted.mem
      fun t ht => hregistered.notMem (hlisted.plain t ht), Nat.zero_add, Option.some_inj]
    refine (countP_eq_countP_and_iff _ _ ids).trans (forall₂_congr fun t _ => ?_)
    cases (s.graph.task t).cancelled <;> simp

/-- Task 1 is submitted and executed to its end. -/
def Schedule.completed : List (Action 1 1) := submit {} ++ .take 0 1 :: worker 13

def completed : State 1 1 :=
  (exec step free (start 1 1) Schedule.completed).get (by decide +kernel)

theorem cancel_spares_finished_completed :
    (∀ t, (completed.graph.task t).Finished →
      (completed.cancel t = (some false, completed) ↔
        (completed.graph.task t).cancelled = true)) ∧
    ∀ ids, Listed completed ids →
      ((completed.cancelAll 0 ids).1 = some (ids.countP completed.unfinished) ↔
        ∀ t ∈ ids, (completed.graph.task t).Finished →
          (completed.graph.task t).cancelled = true) :=
  cancel_spares_finished_iff (.of_isSome _)

theorem finished_cancelled : ¬ ∀ (as : List (Action 1 1)) (s : State 1 1),
    Run step free (start 1 1) as s →
    (∀ t, (s.graph.task t).Finished → s.cancel t = (some false, s)) ∧
      ∀ ids, Listed s ids → (s.cancelAll 0 ids).1 = some (ids.countP s.unfinished) := by
  intro hall
  have hspares := (hall Schedule.completed completed (.of_isSome _)).1 1 (by decide +kernel)
  -- It returns true.
  exact absurd (congrArg Prod.fst hspares) (by decide +kernel)

end Executor
end NexusTask
