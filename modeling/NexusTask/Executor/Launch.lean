import NexusTask.Executor.Tokens

/-!
# Launched tasks have no dependency left

Once somebody has found a task ready its counter must not matter any more. `Launch` says that it
does not: whoever got hold of the task did so when all its dependencies had been added and none was
unfinished, and both stay so.
-/

set_option autoImplicit false

namespace NexusTask
namespace Executor

open Transition

variable {m n : Nat}

namespace State

variable (s : State m n)

/-- The counter of `t` cannot rise any more and asks for nothing. -/
structure Settled (t : TaskId) : Prop where
  complete : s.Complete t
  count : (s.graph.task t).dependenciesCount ≤ 0

/-- Somebody has found `t` ready, or `cancel` has taken effect on it. -/
inductive Launched (t : TaskId) : Prop
  | enqueued (h : (s.graph.task t).enqueued = true)
  | begun (h : (s.graph.task t).status.isWaiting = false)
  | cancelled (h : (s.graph.task t).cancelled = true)
  | polled (h : t ∈ s.scheduler.refers)
  | seen (c : Fin m) (h : t ∈ (s.clients c).sawReady)
  | taken (w : Fin n) (h : t ∈ (s.workers w).hand)

variable {s}

theorem Untouched.settled {t : TaskId} (h : s.Untouched t) : s.Settled t := ⟨h.complete, h.count.le⟩

/-- Whoever is about to mark a task has found it ready. -/
theorem launched_of_markTarget {a : Action m n} {t : TaskId} (h : t ∈ s.markTarget a) :
    s.Launched t := by
  cases a with
  | client c now =>
    refine .seen c ?_
    cases hpc : s.clients c <;> simp_all [markTarget]
  | scheduler =>
    refine .polled ?_
    cases hpc : s.scheduler with
    | marking rest => cases rest <;> simp_all [markTarget, SchedulerPc.refers]
    | _ => simp_all [markTarget]
  | worker w now ok =>
    refine .taken w ?_
    cases hpc : s.workers w with
    | idle => simp_all [markTarget]
    | busy line x => cases line <;> simp_all [markTarget]
  | _ => exact absurd h (by simp [markTarget])

end State

/-! ## What a step does to the status of a task -/

inductive PhaseStep (s : State m n) (a : Action m n) (t : State m n) (u : TaskId) : Prop
  | same (status : (t.graph.task u).status = (s.graph.task u).status)
      (canRetry : (t.graph.task u).canRetry = (s.graph.task u).canRetry)
  | born (new : u = s.nextTaskId) (status : (t.graph.task u).status = .pending)
  /-- The worker that has the task. -/
  | line {w : Fin n} {now : Int} {ok : Bool} {line line' : Line} (act : a = .worker w now ok)
      (old : s.workers w = .busy line u) (h : LineStep s u now ok line line' (t.graph.task u))
      (next : t.workers w = .busy line' u)
  /-- A `cancel` stores its flag, then the status. -/
  | cancelFlag (target : u ∈ s.cancelTarget a) (fresh : (s.graph.task u).cancelled = false)
      (status : (t.graph.task u).status = (s.graph.task u).status)
  | cancelStatus {c : Fin m} (old : s.clients c = .cancelStatus u)
      (next : t.clients c = .cancelPromise u) (status : (t.graph.task u).status = .cancelled)
  /-- The last of its dependencies has finished. -/
  | notified (pos : 0 < (s.graph.task u).dependenciesCount)
      (status : (t.graph.task u).status = .ready)

namespace PhaseStep

variable {s t : State m n} {a : Action m n} {x u : TaskId} {f : Task → Task}

theorem of_same (hg : t.graph = s.graph.modify x f)
    (hs : (f (s.graph.task x)).status = (s.graph.task x).status)
    (hr : (f (s.graph.task x)).canRetry = (s.graph.task x).canRetry) : PhaseStep s a t u := by
  refine .same ?_ ?_
  · rw [hg]; exact DependencyGraph.modify_frame (·.status) hs
  · rw [hg]; exact DependencyGraph.modify_frame (·.canRetry) hr

/-- A step on one task leaves the others alone. -/
theorem of_modify (hg : t.graph = s.graph.modify x f)
    (h : t.graph.task x = f (s.graph.task x) → PhaseStep s a t x) : PhaseStep s a t u := by
  by_cases hu : u = x
  · subst hu
    exact h (by rw [hg, DependencyGraph.modify_self])
  · refine .same ?_ ?_
    · rw [hg, DependencyGraph.modify_of_ne hu]
    · rw [hg, DependencyGraph.modify_of_ne hu]

theorem of_notify {d : TaskId} (hg : t.graph = s.graph.notifyTaskCompleted d) :
    PhaseStep s a t u := by
  by_cases hd : d ∈ s.graph.ids
  · have htask : t.graph.task u
        = Task.notifyDependencyCompleted^[(s.graph.task d).dependents.count u]
          (s.graph.task u) := by
      rw [hg, DependencyGraph.notifyTaskCompleted_task hd]
    rcases Task.notify_status_cases (s.graph.task u) ((s.graph.task d).dependents.count u) with
      hsame | ⟨hpos, hready⟩
    · exact .same (by rw [htask, hsame]) (by rw [htask, Task.notify_canRetry])
    · exact .notified hpos (by rw [htask, hready])
  · rw [DependencyGraph.notifyTaskCompleted_of_notMem hd] at hg
    exact .same (by rw [hg]) (by rw [hg])

end PhaseStep

theorem Move.phase {s t : State m n} {a : Action m n} (hm : Move s a t) (u : TaskId) :
    PhaseStep s a t u := by
  cases hm with
  | newTask now old =>
    refine .of_modify (State.setClient_graph.trans State.newTask_graph) fun htask => .born rfl ?_
    rw [htask]
  | addDependency old =>
    exact .same (DependencyGraph.addDependency_frame (·.status) fun _ _ _ _ => rfl)
      (DependencyGraph.addDependency_frame (·.canRetry) fun _ _ _ _ => rfl)
  | clientMarks old free =>
    exact .of_same (State.setClient_graph.trans State.modify_graph) rfl rfl
  | cancelFlag old fresh =>
    refine .of_modify (State.setClient_graph.trans State.modify_graph) fun htask => ?_
    exact .cancelFlag (by simp [State.cancelTarget, old]) fresh (by rw [htask])
  | cancelStatus old =>
    refine .of_modify (State.setClient_graph.trans State.modify_graph) fun htask => ?_
    exact .cancelStatus old (Function.update_self ..) (by rw [htask])
  | cancelNotify old => exact .of_notify rfl
  | cancelClear old =>
    exact .of_same (State.setClient_graph.trans State.modify_graph) rfl rfl
  | schedulerMarks old free =>
    exact .of_same (State.setScheduler_graph.trans State.modify_graph) rfl rfl
  | line old hline =>
    refine .of_modify (State.goto_graph.trans State.modify_graph) fun htask => ?_
    refine .line rfl old ?_ (Function.update_self ..)
    rw [htask]
    exact hline
  | workerNotifies old => exact .of_notify rfl
  | clears old => exact .of_same (State.finish_graph.trans State.modify_graph) rfl rfl
  | resetsFlag old => exact .of_same (State.goto_graph.trans State.modify_graph) rfl rfl
  | remarks old free => exact .of_same (State.goto_graph.trans State.modify_graph) rfl rfl
  | _ => exact .same rfl rfl

/-! ## Submissions -/

namespace ClientStep

variable {s : State m n} {pc pc' : ClientPc} {u d : TaskId}

theorem submitting (h : ClientStep s pc pc') (hu : u ∈ pc'.submitting) : u ∈ pc.submitting := by
  cases h <;> simp_all

theorem unadded (h : ClientStep s pc pc') (hd : d ∈ pc'.unadded u) : d ∈ pc.unadded u := by
  cases h <;> simp_all

theorem sawReady (h : ClientStep s pc pc') (hu : u ∈ pc'.sawReady) :
    u ∈ pc.sawReady ∨
      u ∈ pc.submitting ∧ pc.unadded u = [] ∧ (s.graph.task u).dependenciesCount = 0 := by
  cases h with
  | count hcount =>
    obtain rfl := List.mem_singleton.mp hu
    exact .inr ⟨List.mem_singleton_self u, rfl, hcount⟩
  | _ => simp_all

end ClientStep

theorem ClientPc.submitting_of_unadded {pc : ClientPc} {u d : TaskId} (h : d ∈ pc.unadded u) :
    u ∈ pc.submitting := by
  cases pc <;> simp_all

namespace Move

variable {s t : State m n} {a : Action m n} {c : Fin m} {u d : TaskId}

theorem submitting (hm : Move s a t) (hu : u ∈ (t.clients c).submitting) :
    u ∈ (s.clients c).submitting ∨ u = s.nextTaskId := by
  rcases hm.clientMove c with hsame | hmove
  · exact .inl (hsame ▸ hu)
  · generalize s.clients c = pc, t.clients c = pc' at hmove hu
    cases hmove with
    | call => exact absurd (Call.entry_submitting _ ▸ hu) List.not_mem_nil
    | quiet h => exact .inl (h.submitting hu)
    | newTask next named => exact .inr (List.mem_singleton.mp hu)
    | addTask | addDependency | marks => exact .inl hu
    | _ => exact absurd hu (by simp)

/-- Only the submission of a new task has new dependencies to add. -/
theorem unadded (hm : Move s a t) (hd : d ∈ (t.clients c).unadded u) :
    d ∈ (s.clients c).unadded u ∨ u = s.nextTaskId ∧ d ∈ t.named u := by
  rcases hm.clientMove c with hsame | hmove
  · exact .inl (hsame ▸ hd)
  · generalize s.clients c = pc, t.clients c = pc' at hmove hd
    cases hmove with
    | call => exact absurd (Call.entry_unadded _ u ▸ hd) List.not_mem_nil
    | quiet h => exact .inl (h.unadded hd)
    | newTask next named =>
      by_cases hu : s.nextTaskId = u
      · subst hu
        exact .inr ⟨rfl, by simpa [named] using hd⟩
      · exact absurd hd (by simp [hu])
    | addTask => exact .inl hd
    | @addDependency x e rest edge =>
      left
      by_cases hx : x = u
      · simp only [ClientPc.unadded, hx, if_true] at hd ⊢
        exact List.mem_cons_of_mem e hd
      · exact absurd hd (by simp [hx])
    | _ => exact absurd hd (by simp)

theorem sawReady (hm : Move s a t) (hu : u ∈ (t.clients c).sawReady) :
    u ∈ (s.clients c).sawReady ∨
      u ∈ (s.clients c).submitting ∧ (s.clients c).unadded u = [] ∧
        (s.graph.task u).dependenciesCount = 0 := by
  rcases hm.clientMove c with hsame | hmove
  · exact .inl (hsame ▸ hu)
  · generalize s.clients c = pc, t.clients c = pc' at hmove hu
    cases hmove with
    | call => exact absurd (Call.entry_sawReady _ ▸ hu) List.not_mem_nil
    | quiet h => exact h.sawReady hu
    | _ => exact absurd hu (by simp)

end Move

/-! ## The invariant -/

/-- A task is submitted by one thread, and launched only when it is settled. -/
structure Launch (s : State m n) : Prop where
  submitter : ∀ c d, ∀ u ∈ (s.clients c).submitting, u ∈ (s.clients d).submitting → c = d
  settled : ∀ u, s.Launched u → s.Settled u

theorem launch_start : Launch (start m n) where
  submitter c d u hu := absurd hu (by simp [start])
  settled u hu := by
    cases hu with
    | enqueued h => exact absurd h (by simp [start])
    | begun h => exact absurd h (by simp [start, TaskStatus.isWaiting])
    | cancelled h => exact absurd h (by simp [start])
    | polled h => exact absurd h (by simp [start, SchedulerPc.refers])
    | seen c h => exact absurd h (by simp [start])
    | taken w h => exact absurd h (by simp [start])

theorem Known.launched_lt {s : State m n} (h : Known s) {u : TaskId} (hu : s.Launched u) :
    u < s.nextTaskId := by
  by_contra hge
  have hunborn := h.unborn u (Nat.le_of_not_lt hge)
  apply hge
  cases hu with
  | enqueued hu => exact absurd hu (by simp [hunborn])
  | begun hu => exact absurd hu (by simp [hunborn, TaskStatus.isWaiting])
  | cancelled hu => exact absurd hu (by simp [hunborn])
  | polled hu => exact h.scheduler u hu
  | seen c hu => exact h.clients c u (ClientPc.refers_of_sawReady hu)
  | taken w hu => exact h.workers w u hu

/-- No two threads submit one task: only the thread that has just got an id can submit it. -/
theorem Known.submitter_move {s t : State m n} {a : Action m n} (h : Known s)
    (hsole : ∀ c d, ∀ u ∈ (s.clients c).submitting, u ∈ (s.clients d).submitting → c = d)
    (hm : Move s a t) {c d : Fin m} {u : TaskId} (hc : u ∈ (t.clients c).submitting)
    (hd : u ∈ (t.clients d).submitting) : c = d := by
  by_cases hnew : u = s.nextTaskId
  · have hmoved : ∀ {e : Fin m}, u ∈ (t.clients e).submitting → t.clients e ≠ s.clients e := by
      intro e he hsame
      have hlt := h.clients e u (ClientPc.refers_of_submitting (hsame ▸ he))
      exact Nat.ne_of_lt hlt hnew
    exact hm.client_sole (hmoved hc) (hmoved hd)
  · exact hsole c d u ((hm.submitting hc).resolve_right hnew)
      ((hm.submitting hd).resolve_right hnew)

namespace Launch

variable {s t : State m n} {a : Action m n} {u : TaskId}

/-- Settled tasks stay settled. -/
theorem settled_move (hknown : Known s) (hm : Move s a t) (hlt : u < s.nextTaskId)
    (hu : s.Settled u) : t.Settled u where
  complete c := by
    apply List.eq_nil_iff_forall_not_mem.mpr
    intro d hd
    rcases hm.unadded hd with hold | ⟨hnew, _⟩
    · rw [hu.complete c] at hold
      exact absurd hold (List.not_mem_nil)
    · exact absurd hnew (Nat.ne_of_lt hlt)
  count := by
    have hg := hknown.graphStep hm
    generalize t.graph = g, t.nextTaskId = next, t.edges = edges at hg
    cases hg with
    | same => exact hu.count
    | newTask k fresh =>
      rw [DependencyGraph.modify_of_ne (Nat.ne_of_lt hlt)]
      exact hu.count
    | addTask old => exact hu.count
    | @addDependency c x d rest old =>
      -- The task whose counter goes up has a dependency to add.
      have hne : u ≠ x := by
        rintro rfl
        have hcomplete := hu.complete c
        rw [old] at hcomplete
        exact absurd hcomplete (by simp)
      rw [DependencyGraph.addDependency_count_of_ne hne]
      exact hu.count
    | notify d =>
      by_cases hd : d ∈ s.graph.ids
      · rw [DependencyGraph.notifyTaskCompleted_task hd, Task.notify_dependenciesCount]
        have hcount := hu.count
        omega
      · rw [DependencyGraph.notifyTaskCompleted_of_notMem hd]
        exact hu.count
    | touch known same =>
      rw [DependencyGraph.modify_frame (·.dependenciesCount) same.count]
      exact hu.count

/-- A task that a submission sees with counter 0 has got all its dependencies: its submission has
added all of them, and no other thread is submitting it. -/
theorem complete_of_submitting (h : Launch s) {c : Fin m} (hc : u ∈ (s.clients c).submitting)
    (hadded : (s.clients c).unadded u = []) : s.Complete u := by
  intro d
  apply List.eq_nil_iff_forall_not_mem.mpr
  intro e he
  have hd : c = d := h.submitter c d u hc (ClientPc.submitting_of_unadded he)
  rw [← hd, hadded] at he
  exact absurd he List.not_mem_nil

/-- A task is launched by a thread that has found it settled. -/
theorem launched_move (h : Launch s) (hknown : Known s) (htokens : Tokens s)
    (hpoll : PollComplete s a) (hcancel : CancelUntouched s a) (hm : Move s a t)
    (hu : t.Launched u) : s.Launched u ∨ u < s.nextTaskId ∧ s.Settled u := by
  cases hu with
  | enqueued hu =>
    cases hm.flags hknown u with
    | same hc he => exact .inl (.enqueued (he.symm.trans hu))
    | clear clearer hc he => exact absurd (he.symm.trans hu) (by simp)
    | mark target free hc => exact .inl (State.launched_of_markTarget target)
    | cancel target fresh hc he => exact .inl (.enqueued (he.symm.trans hu))
  | begun hu =>
    left
    cases hm.phase u with
    | same status canRetry => exact .begun (status ▸ hu)
    | born new status => exact absurd hu (by simp [status, TaskStatus.isWaiting])
    | @line w now ok line line' act old hline next =>
      exact .taken w (by rw [old]; exact List.mem_singleton_self u)
    | cancelFlag target fresh status => exact .begun (status ▸ hu)
    | @cancelStatus c old next status =>
      exact .cancelled (htokens.cancelled c u (by rw [old]; exact List.mem_singleton_self u))
    | notified pos status => exact absurd hu (by simp [status, TaskStatus.isWaiting])
  | cancelled hu =>
    cases hm.flags hknown u with
    | same hc he => exact .inl (.cancelled (hc.symm.trans hu))
    | clear clearer hc he => exact .inl (.cancelled (hc.symm.trans hu))
    | mark target free hc => exact .inl (.cancelled (hc.symm.trans hu))
    | cancel target fresh hc he =>
      exact .inr ⟨hknown.cancelTarget_lt target, (hcancel u target fresh).settled⟩
  | polled hu =>
    rcases hm.scheduler_refers hu with hold | ⟨order, rfl, horder, hready⟩
    · exact .inl (.polled hold)
    · have hmem := DependencyGraph.mem_getReadyTasks.mp hready
      exact .inr ⟨hknown.ids u hmem.1, hpoll u horder, ((Task.isReady_iff _).mp hmem.2).1.le⟩
  | seen c hu =>
    rcases hm.sawReady hu with hold | ⟨hsubmitting, hadded, hcount⟩
    · exact .inl (.seen c hold)
    · exact .inr ⟨hknown.clients c u (ClientPc.refers_of_submitting hsubmitting),
        h.complete_of_submitting hsubmitting hadded, hcount.le⟩
  | taken w hu =>
    left
    rcases hm.hand hu with hold | hqueued
    · exact .taken w hold
    · exact .enqueued (htokens.enqueued_of_queued hqueued)

theorem move (h : Launch s) (hknown : Known s) (htokens : Tokens s) (hpoll : PollComplete s a)
    (hcancel : CancelUntouched s a) (hm : Move s a t) : Launch t where
  submitter c d _ hc hd := hknown.submitter_move h.submitter hm hc hd
  settled u hu := by
    rcases h.launched_move hknown htokens hpoll hcancel hm hu with hold | ⟨hlt, hsettled⟩
    · exact settled_move hknown hm (hknown.launched_lt hold) (h.settled u hold)
    · exact settled_move hknown hm hlt hsettled

end Launch
end Executor
end NexusTask
