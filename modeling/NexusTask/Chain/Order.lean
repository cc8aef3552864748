import NexusTask.Chain

/-!
# The order of a chain's tasks

The dependencies of the chain's tasks are the tasks before them, each of them one, so there is one
order in which an executor can run them: that of the steps.
-/

set_option autoImplicit false

namespace NexusTask

open Transition

namespace Executor

variable {m n : Nat} {s t : State m n} {a : Action m n}

/-- A function is running, or has returned, once it has been started. -/
structure Invoked (s : State m n) : Prop where
  running : ∀ w u, s.workers w = .busy .inFunction u → u ∈ s.started
  returned : ∀ u ∈ s.returned, u ∈ s.started

theorem Move.started_keep (hm : Move s a t) {u : TaskId} (hu : u ∈ s.started) : u ∈ t.started := by
  rcases hm.started with hsame | ⟨_, _, _, _, _, _, hnew⟩
  · exact hsame ▸ hu
  · rw [hnew]
    exact List.mem_append_left _ hu

theorem Move.started_of_called {w : Fin n} {now : Int} {ok : Bool} {u : TaskId}
    (hm : Move s (.worker w now ok) t) (hw : s.workers w = .busy .callFunction u) :
    t.started = s.started ++ [u] := by
  cases hm with
  | line old hline =>
    obtain ⟨rfl, rfl⟩ := WorkerPc.busy.inj (hw.symm.trans old)
    show (if Line.callFunction = .callFunction then s.started ++ [u] else s.started) = _
    rw [if_pos rfl]
  | workerNotifies old | clears old | resetsFlag old | remarks old _ | remarkLoses old
  | resubmits old => exact absurd (hw.symm.trans old) (by simp)

/-- `fetch_add` on `next_task_id_`, and the construction of the task. -/
theorem newTask_of_step {c : Fin m} {now : Int} {deps : List TaskId} {options : TaskOptions}
    {async : Bool} (h : step s (.client c now) = some t)
    (hc : s.clients c = .newTask deps options async) :
    t = (s.newTask deps options async now).setClient c (.record s.nextTaskId deps) := by
  change clientStep s c now = some t at h
  simp only [clientStep, hc] at h
  exact (Option.some.inj h).symm

theorem clients_of_call {c : Fin m} {op : Call} (h : step s (.call c op) = some t) :
    t.clients = Function.update s.clients c op.entry := by
  change (if s.clients c = .idle then some (s.setClient c op.entry) else none) = some t at h
  split at h
  next =>
    rw [← Option.some.inj h]
    rfl
  next => exact absurd h (by simp)

theorem invoked_start : Invoked (start m n) :=
  ⟨fun _ _ h => absurd h (by simp [start]), fun _ hu => absurd hu List.not_mem_nil⟩

theorem Invoked.move (h : Invoked s) (hm : Move s a t) : Invoked t where
  running w u hw := by
    rcases hm.workerMove w with hsame | hmove
    · exact hm.started_keep (h.running w u (hsame ▸ hw))
    · generalize hold : s.workers w = pc at hmove
      rw [hw] at hmove
      cases hmove with
      | line act hline =>
        subst act
        generalize t.graph.task u = k at hline
        cases hline with
        | call =>
          rw [hm.started_of_called hold]
          exact List.mem_append_right _ (List.mem_singleton_self u)
  returned u hu := by
    rcases hm.returned with hsame | ⟨w, _, _, x, _, _, old, _, _, _, hnew⟩
    · exact hm.started_keep (h.returned u (hsame ▸ hu))
    · rw [hnew] at hu
      rcases List.mem_append.mp hu with hold | hlast
      · exact hm.started_keep (h.returned u hold)
      · obtain rfl := List.mem_singleton.mp hlast
        exact hm.started_keep (h.running w u old)

end Executor

namespace Execution

open Executor (Action Move Remembered remembered_start Invoked invoked_start)

variable {α : Type} {m n : Nat} {chain : TaskChain α} {x : TaskResult α} {p q : Execution m n}

/-- What a round of the loop names: the task before. -/
def before (tasks : List TaskId) : List TaskId := tasks.getLast?.toList

/-- What holds of a call of `execute` in every run. -/
structure Chained (chain : TaskChain α) (p : Execution m n) : Prop where
  remembered : Remembered p.exec
  invoked : Invoked p.exec
  lt : ∀ u ∈ p.tasks, u < p.exec.nextTaskId
  nodup : p.tasks.Nodup
  le : p.tasks.length ≤ chain.steps.length
  entering : ∀ deps options async, p.exec.clients caller = .newTask deps options async →
    deps = before p.tasks ∧ p.tasks.length < chain.steps.length
  named : ∀ i u, p.tasks[i]? = some u → p.exec.named u = before (p.tasks.take i)

/-- What a step can do. -/
inductive Step (chain : TaskChain α) (x : TaskResult α) (p q : Execution m n) : Event m n → Prop
  | submit (submission : Submission α)
      (round : chain.submission x p.tasks.length p.currentId = some submission)
      (next : Executor.step p.exec (.call caller submission.call) = some q.exec)
      (tasks : q.tasks = p.tasks) : Step chain x p q .submit
  | exec {a : Action (m + 1) n} (own : isForeign a = false)
      (next : Executor.step p.exec a = some q.exec)
      (tasks : q.tasks = p.tasks ++ p.newTasks a) : Step chain x p q (.exec a)

theorem Step.of_step {e : Event m n} (h : step chain x p e = some q) : Step chain x p q e := by
  unfold step at h
  cases e with
  | submit =>
    obtain ⟨submission, hround, h⟩ := Option.bind_eq_some_iff.mp h
    obtain ⟨exec, hexec, rfl⟩ := Option.map_eq_some_iff.mp h
    exact .submit submission hround hexec rfl
  | exec a =>
    dsimp only at h
    split at h
    next => exact absurd h (by simp)
    next hown =>
      obtain ⟨exec, hexec, rfl⟩ := Option.map_eq_some_iff.mp h
      exact .exec (Bool.eq_false_of_not_eq_true hown) hexec rfl

/-- The caller gets an id for its task, or nobody does so on its behalf. -/
theorem newTasks_cases (p : Execution m n) (a : Action (m + 1) n) :
    p.newTasks a = [] ∨ ∃ now deps options async, a = .client caller now ∧
      p.exec.clients caller = .newTask deps options async ∧
        p.newTasks a = [p.exec.nextTaskId] := by
  unfold newTasks
  split
  next c now =>
    split
    next deps options async hpc =>
      by_cases hc : c = caller
      · subst hc
        exact .inr ⟨now, deps, options, async, rfl, hpc, if_pos rfl⟩
      · exact .inl (if_neg hc)
    next => exact .inl rfl
  next => exact .inl rfl

theorem before_of_submission {submission : Submission α} {tasks : List TaskId}
    (h : chain.submission x tasks.length (tasks.getLastD 0) = some submission) :
    ∃ options, submission.call.entry = .newTask (before tasks) options false := by
  obtain ⟨step, _, rfl⟩ := Option.map_eq_some_iff.mp h
  cases tasks using List.reverseRecOn with
  | nil => exact ⟨{}, rfl⟩
  | append_singleton tasks u =>
    refine ⟨{}, ?_⟩
    unfold before Submission.call
    simp only [List.length_append, List.length_singleton, Nat.add_eq_zero_iff, one_ne_zero,
      and_false, if_false, List.getLastD_concat, List.getLast?_concat, Option.toList_some]
    rfl

/-- Only the loop has the caller submit a task. -/
theorem entering_of_own {s t : Executor.State (m + 1) n} {a : Action (m + 1) n}
    {deps : List TaskId} {options : TaskOptions} {async : Bool} (own : isForeign a = false)
    (next : Executor.step s a = some t) (hpc : t.clients caller = .newTask deps options async) :
    s.clients caller = .newTask deps options async := by
  cases a with
  | call c op =>
    have hc : caller ≠ c := by
      rintro rfl
      exact absurd own (by simp [isForeign])
    rwa [Executor.clients_of_call next, Function.update_of_ne hc] at hpc
  | client _ _ | poll _ | scheduler | take _ _ | worker _ _ _ =>
    rcases (Move.of_step next).clientMove caller with hsame | hmove
    · exact hsame ▸ hpc
    · generalize s.clients caller = pc, t.clients caller = pc' at hmove hpc
      cases hmove with
      | call c act => cases act
      | quiet hquiet =>
        subst hpc
        cases hquiet
      | _ => cases hpc

namespace Chained

theorem tasks_notMem_new (h : Chained chain p) : p.exec.nextTaskId ∉ p.tasks := by
  intro hmem
  exact absurd (h.lt _ hmem) (Nat.lt_irrefl _)

/-- A step of the executor after which the chain has the same tasks. -/
theorem move (h : Chained chain p) {a : Action (m + 1) n} (hm : Move p.exec a q.exec)
    (htasks : q.tasks = p.tasks)
    (hentering : ∀ deps options async, q.exec.clients caller = .newTask deps options async →
      deps = before q.tasks ∧ q.tasks.length < chain.steps.length) : Chained chain q where
  remembered := h.remembered.move hm
  invoked := h.invoked.move hm
  lt u hu := Nat.lt_of_lt_of_le (h.lt u (htasks ▸ hu)) hm.nextTaskId_le
  nodup := htasks ▸ h.nodup
  le := htasks ▸ h.le
  entering := hentering
  named i u hu := by
    rw [htasks] at hu ⊢
    have hlt := h.lt u (List.mem_of_getElem? hu)
    rw [hm.named (Nat.ne_of_lt hlt)]
    exact h.named i u hu

/-- The step that gives the caller's task its id. -/
theorem new (h : Chained chain p) {now : Int} {deps : List TaskId} {options : TaskOptions}
    {async : Bool} (hnext : Executor.step p.exec (.client caller now) = some q.exec)
    (hpc : p.exec.clients caller = .newTask deps options async)
    (htasks : q.tasks = p.tasks ++ [p.exec.nextTaskId]) : Chained chain q := by
  obtain ⟨rfl, hlt⟩ := h.entering deps options async hpc
  have hm : Move p.exec (.client caller now) q.exec := .of_step hnext
  have hq := Executor.newTask_of_step hnext hpc
  refine ⟨h.remembered.move hm, h.invoked.move hm, ?_, ?_, ?_, ?_, ?_⟩
  · intro u hu
    rw [htasks] at hu
    rw [hq]
    rcases List.mem_append.mp hu with hold | hnew
    · exact Nat.lt_succ_of_lt (h.lt u hold)
    · rw [List.mem_singleton.mp hnew]
      exact Nat.lt_succ_self _
  · rw [htasks, List.nodup_append_comm]
    exact List.nodup_cons.mpr ⟨h.tasks_notMem_new, h.nodup⟩
  · rw [htasks, List.length_append]
    exact hlt
  · intro deps' options' async' hpc'
    have hclient : q.exec.clients caller = .record p.exec.nextTaskId (before p.tasks) := by
      rw [hq]
      simp [Executor.State.setClient]
    exact absurd (hclient.symm.trans hpc') (by simp)
  · intro i u hu
    rw [htasks] at hu ⊢
    rcases Nat.lt_or_ge i p.tasks.length with hi | hi
    · rw [List.getElem?_append_left hi] at hu
      rw [List.take_append_of_le_length hi.le, hm.named (Nat.ne_of_lt (h.lt u _))]
      · exact h.named i u hu
      · exact List.mem_of_getElem? hu
    · obtain rfl : i = p.tasks.length := by
        have hbound := (List.getElem?_eq_some_iff.mp hu).1
        rw [List.length_append, List.length_singleton] at hbound
        omega
      rw [List.getElem?_append_right hi, Nat.sub_self] at hu
      obtain rfl := Option.some.inj hu
      rw [List.take_left, hq]
      exact Function.update_self ..

theorem start : Chained chain (start m n) where
  remembered := remembered_start
  invoked := invoked_start
  lt u hu := absurd hu List.not_mem_nil
  nodup := List.nodup_nil
  le := Nat.zero_le _
  entering deps options async h := absurd h (by simp [Execution.start, Executor.start])
  named i u hu := absurd hu (by simp [Execution.start])

theorem step {e : Event m n} (h : Chained chain p) (hstep : Step chain x p q e) :
    Chained chain q := by
  cases hstep with
  | submit submission round next tasks =>
    obtain ⟨options, hentry⟩ := before_of_submission round
    refine h.move (.of_step next) tasks ?_
    intro deps' options' async' hpc
    rw [tasks]
    have hlt : p.tasks.length < chain.steps.length := by
      obtain ⟨step, hstep, _⟩ := Option.map_eq_some_iff.mp round
      exact (List.getElem?_eq_some_iff.mp hstep).1
    rw [Executor.clients_of_call next, Function.update_self, hentry] at hpc
    cases hpc
    exact ⟨rfl, hlt⟩
  | exec own next tasks =>
    rename_i a
    have hm : Move p.exec a q.exec := .of_step next
    rcases newTasks_cases p a with hnone | ⟨now, deps, options, async, rfl, hpc, hnew⟩
    · rw [hnone, List.append_nil] at tasks
      refine h.move hm tasks ?_
      intro deps options async hpc
      rw [tasks]
      exact h.entering deps options async (entering_of_own own next hpc)
    · rw [hnew] at tasks
      exact h.new next hpc tasks

end Chained

/-! ## In order -/

/-- The executor starts a task of the chain only once, and after the tasks it depends on have
returned. -/
def InOrder (p : Execution m n) : Event m n → Prop
  | .exec (.worker w _ _) => ∀ u ∈ p.tasks, p.exec.workers w = .busy .callFunction u →
      u ∉ p.exec.started ∧ ∀ d ∈ p.exec.named u, d ∈ p.exec.returned
  | _ => True

instance (p : Execution m n) : (e : Event m n) → Decidable (InOrder p e)
  | .exec (.worker w _ _) => inferInstanceAs (Decidable (∀ u ∈ p.tasks,
      p.exec.workers w = .busy .callFunction u →
        u ∉ p.exec.started ∧ ∀ d ∈ p.exec.named u, d ∈ p.exec.returned))
  | .submit | .exec (.call _ _) | .exec (.client _ _) | .exec (.poll _) | .exec .scheduler
  | .exec (.take _ _) => .isTrue trivial

/-- The tasks of the chain that have been started are the first ones, started one after the
other. -/
def StartedFirst (p : Execution m n) : Prop :=
  ∃ k ≤ p.tasks.length, p.exec.started.filter (· ∈ p.tasks) = p.tasks.take k

namespace Chained

/-- The function of a task that has the next turn is called. -/
theorem take_succ (h : Chained chain p) {k : Nat} {u : TaskId} (hu : u ∈ p.tasks)
    (hfirst : p.exec.started.filter (· ∈ p.tasks) = p.tasks.take k) (hnew : u ∉ p.exec.started)
    (hdeps : ∀ d ∈ p.exec.named u, d ∈ p.exec.returned) :
    k < p.tasks.length ∧ p.tasks.take k ++ [u] = p.tasks.take (k + 1) := by
  have hmem : ∀ v ∈ p.tasks, v ∈ p.exec.started ↔ v ∈ p.tasks.take k := by
    intro v hv
    rw [← hfirst]
    simp [hv]
  obtain ⟨i, hi, rfl⟩ := List.getElem_of_mem hu
  -- It is not among the first `k`, and the one before it is.
  have hge : k ≤ i := by
    by_contra hlt
    exact hnew ((hmem _ hu).mpr (List.mem_take_iff_getElem.mpr ⟨i, by omega, rfl⟩))
  have hle : i ≤ k := by
    by_contra hgt
    have hbefore : p.tasks[i - 1] ∈ p.exec.named p.tasks[i] := by
      rw [h.named i _ (List.getElem?_eq_getElem hi)]
      unfold before
      rw [List.getLast?_take, if_neg (by omega)]
      simp [show i - 1 < p.tasks.length by omega]
    have hstarted := h.invoked.returned _ (hdeps _ hbefore)
    have htake := (hmem _ (List.getElem_mem _)).mp hstarted
    obtain ⟨j, hj, heq⟩ := List.mem_take_iff_getElem.mp htake
    have hij := (List.Nodup.getElem_inj_iff h.nodup).mp heq
    omega
  obtain rfl : i = k := by omega
  exact ⟨hi, by rw [List.take_append_getElem]⟩

end Chained

namespace StartedFirst

/-- A step that starts no function. The task that the chain gets, if any, has not been started. -/
theorem of_tasks (hfirst : StartedFirst p) (h : Chained chain p) {new : List TaskId}
    (htasks : q.tasks = p.tasks ++ new) (hnew : ∀ u ∈ new, p.exec.nextTaskId ≤ u)
    (hstarted : q.exec.started = p.exec.started) : StartedFirst q := by
  obtain ⟨k, hk, hfilter⟩ := hfirst
  refine ⟨k, ?_, ?_⟩
  · rw [htasks, List.length_append]
    omega
  · rw [hstarted, htasks, List.take_append_of_le_length hk, ← hfilter]
    apply List.filter_congr
    intro u hu
    have hlt := h.remembered.started u hu
    have hnot : u ∉ new := fun hmem => absurd (hnew u hmem) (Nat.not_le.mpr hlt)
    simp [hnot]

/-- The function of a task is called. -/
theorem of_called (hfirst : StartedFirst p) (h : Chained chain p) {u : TaskId}
    (htasks : q.tasks = p.tasks) (hstarted : q.exec.started = p.exec.started ++ [u])
    (hok : u ∈ p.tasks → u ∉ p.exec.started ∧ ∀ d ∈ p.exec.named u, d ∈ p.exec.returned) :
    StartedFirst q := by
  obtain ⟨k, hk, hfilter⟩ := hfirst
  by_cases hu : u ∈ p.tasks
  · obtain ⟨hnew, hdeps⟩ := hok hu
    obtain ⟨hlt, htake⟩ := h.take_succ hu hfilter hnew hdeps
    refine ⟨k + 1, ?_, ?_⟩
    · rw [htasks]
      exact hlt
    · rw [hstarted, htasks, List.filter_append, hfilter, ← htake]
      simp [hu]
  · refine ⟨k, ?_, ?_⟩
    · rw [htasks]
      exact hk
    · rw [hstarted, htasks, List.filter_append, hfilter]
      simp [hu]

theorem step {e : Event m n} (hfirst : StartedFirst p) (h : Chained chain p) (hok : InOrder p e)
    (hstep : Step chain x p q e) : StartedFirst q := by
  cases hstep with
  | submit submission round next tasks =>
    have hm : Move p.exec _ q.exec := .of_step next
    rcases hm.started with hsame | ⟨w, now, ok, u, act, _⟩
    · exact hfirst.of_tasks h (tasks.trans (List.append_nil _).symm) (by simp) hsame
    · cases act
  | exec own next tasks =>
    rename_i a
    have hm : Move p.exec a q.exec := .of_step next
    rcases hm.started with hsame | ⟨w, now, ok, u, rfl, hw, hnew⟩
    · refine hfirst.of_tasks h tasks ?_ hsame
      intro u hu
      rcases newTasks_cases p a with hnone | ⟨_, _, _, _, _, _, hone⟩
      · exact absurd hu (hnone ▸ List.not_mem_nil)
      · exact (List.mem_singleton.mp (hone ▸ hu)).ge
    · exact hfirst.of_called h (tasks.trans (List.append_nil _)) hnew fun hu => hok u hu hw

end StartedFirst

/-- **Every run in dependency order starts the tasks of the chain in the order of its steps.** -/
theorem startedFirst_of_run {es : List (Event m n)}
    (run : Run (Execution.step chain x) InOrder (Execution.start m n) es p) :
    Chained chain p ∧ StartedFirst p := by
  have hpreserved : Preserved (Execution.step (m := m) (n := n) chain x) InOrder
      fun p => Chained chain p ∧ StartedFirst p := by
    intro p e q ⟨h, hfirst⟩ hok hstep
    exact ⟨h.step (.of_step hstep), hfirst.step h hok (.of_step hstep)⟩
  have hstart : Chained chain (Execution.start m n) ∧ StartedFirst (Execution.start m n) :=
    ⟨.start, 0, Nat.zero_le _, rfl⟩
  have hend := run.invariant hpreserved hstart
  exact hend

end Execution
end NexusTask
