import NexusTask.Executor.Edges

/-!
# Before a task is in the graph

`submit_internal` counts a submission, registers the promise and then adds the task to the graph.
Until it has added it nobody else knows of the task: the scheduler polls the graph and `cancel`
looks its argument up there. `Entered` says so, for every run. `Registered` says that
`task_promises_` has only promises of `submit_async`.
-/

set_option autoImplicit false

namespace NexusTask
namespace Executor

open Transition

variable {m n : Nat}

namespace ClientPc

/-- The task a submission has not yet added to the graph. -/
@[simp] def entering : ClientPc → List TaskId
  | .record t _ | .register t _ | .add t _ => [t]
  | _ => []

/-- The task a submission has added to the graph, or a `cancel` has found there. -/
@[simp] def entered : ClientPc → List TaskId
  | .edges t _ | .readyStatus t | .readyCount t _ | .readyEnqueued t | .mark t | .enqueue t
  | .cancelFlag t => [t]
  | pc => pc.cancelled

theorem submitting_of_entering {pc : ClientPc} {u : TaskId} (h : u ∈ pc.entering) :
    u ∈ pc.submitting := by
  cases pc <;> simp_all

theorem entered_of_marked {pc : ClientPc} {u : TaskId} (h : u ∈ pc.marked) : u ∈ pc.entered := by
  cases pc <;> simp_all

end ClientPc

theorem Call.entry_entering (op : Call) : op.entry.entering = [] := by cases op <;> rfl
theorem Call.entry_entered (op : Call) : op.entry.entered = [] := by cases op <;> rfl

theorem ClientStep.entered {s : State m n} {pc pc' : ClientPc} {u : TaskId}
    (h : ClientStep s pc pc') (hu : u ∈ pc'.entered) : u ∈ pc.entered ∨ u ∈ s.graph.ids := by
  cases h <;> simp_all

theorem ClientStep.entering {s : State m n} {pc pc' : ClientPc} {u : TaskId}
    (h : ClientStep s pc pc') (hu : u ∈ pc'.entering) : u ∈ pc.entering := by
  cases h <;> simp_all

namespace Move

variable {s t : State m n} {a : Action m n} {c : Fin m} {u : TaskId}

theorem entered (hm : Move s a t) (hu : u ∈ (t.clients c).entered) :
    u ∈ (s.clients c).entered ∨ u ∈ s.graph.ids ∨ u ∈ t.graph.ids := by
  rcases hm.clientMove c with hsame | hmove
  · exact .inl (hsame ▸ hu)
  · generalize s.clients c = pc, t.clients c = pc' at hmove hu
    cases hmove with
    | call => exact absurd (Call.entry_entered _ ▸ hu) List.not_mem_nil
    | quiet h => exact (h.entered hu).imp id .inl
    | addTask ids => exact .inr (.inr ((List.mem_singleton.mp hu).symm ▸ ids))
    | newTask | enqueues | cancelClear => exact absurd hu (by simp)
    | _ => exact .inl hu

theorem entering (hm : Move s a t) (hu : u ∈ (t.clients c).entering) :
    u ∈ (s.clients c).entering ∨ u = s.nextTaskId := by
  rcases hm.clientMove c with hsame | hmove
  · exact .inl (hsame ▸ hu)
  · generalize s.clients c = pc, t.clients c = pc' at hmove hu
    cases hmove with
    | call => exact absurd (Call.entry_entering _ ▸ hu) List.not_mem_nil
    | quiet h => exact .inl (h.entering hu)
    | newTask next named => exact .inr (List.mem_singleton.mp hu)
    | _ => exact absurd hu (by simp)

/-- A task gets into the graph from the submission that creates it. -/
theorem ids (hm : Move s a t) (hu : u ∈ t.graph.ids) :
    u ∈ s.graph.ids ∨ ∃ c, u ∈ (s.clients c).entering ∧ u ∉ (t.clients c).entering := by
  cases hm with
  | @addTask c now x deps old =>
    rcases DependencyGraph.mem_addTask.mp hu with hold | rfl
    · exact .inl hold
    · refine .inr ⟨c, by rw [old]; exact List.mem_singleton_self u, ?_⟩
      show u ∉ (Function.update s.clients c _ c).entering
      rw [Function.update_self]
      exact List.not_mem_nil
  | addDependency old => rw [State.setClient_graph, State.addDependency_ids] at hu; exact .inl hu
  | cancelNotify old => rw [State.setClient_graph, State.notify_ids] at hu; exact .inl hu
  | workerNotifies old => rw [State.goto_graph, State.notify_ids] at hu; exact .inl hu
  | _ => exact .inl hu

end Move

structure Entered (s : State m n) : Prop where
  known : Known s
  submitter : ∀ c d, ∀ u ∈ (s.clients c).submitting, u ∈ (s.clients d).submitting → c = d
  queued : ∀ u ∈ s.queued, u ∈ s.graph.ids
  scheduler : ∀ u ∈ s.scheduler.refers, u ∈ s.graph.ids
  clients : ∀ c, ∀ u ∈ (s.clients c).entered, u ∈ s.graph.ids
  workers : ∀ w, ∀ u ∈ (s.workers w).hand, u ∈ s.graph.ids
  /-- A task outside the graph has not been begun with. -/
  waiting : ∀ u, u ∉ s.graph.ids → (s.graph.task u).status.isWaiting = true
  entering : ∀ c, ∀ u ∈ (s.clients c).entering, u ∉ s.graph.ids

theorem entered_start : Entered (start m n) where
  known := known_start
  submitter c d u hu := absurd hu (by simp [start])
  queued u hu := absurd hu (by simp [start])
  scheduler u hu := absurd hu (by simp [start, SchedulerPc.refers])
  clients c u hu := absurd hu (by simp [start])
  workers w u hu := absurd hu (by simp [start])
  waiting u hu := rfl
  entering c u hu := absurd hu (by simp [start])

namespace Entered

variable {s t : State m n} {a : Action m n} {u : TaskId}

theorem queued_move (h : Entered s) (hm : Move s a t) (hu : u ∈ t.queued) : u ∈ s.graph.ids := by
  rcases hm.queued hu with hold | ⟨c, hc⟩ | hsched | ⟨w, hw⟩
  · exact h.queued u hold
  · exact h.clients c u (ClientPc.entered_of_marked hc)
  · exact h.scheduler u (List.mem_append_left _ hsched)
  · exact h.workers w u (by rw [hw]; exact List.mem_singleton_self u)

theorem scheduler_move (h : Entered s) (hm : Move s a t) (hu : u ∈ t.scheduler.refers) :
    u ∈ s.graph.ids := by
  rcases hm.scheduler_refers hu with hold | ⟨_, _, _, hready⟩
  · exact h.scheduler u hold
  · exact (DependencyGraph.mem_getReadyTasks.mp hready).1

theorem clients_move (h : Entered s) (hm : Move s a t) {c : Fin m}
    (hu : u ∈ (t.clients c).entered) : u ∈ t.graph.ids := by
  rcases hm.entered hu with hold | hids | hids
  · exact hm.ids_keep (h.clients c u hold)
  · exact hm.ids_keep hids
  · exact hids

theorem workers_move (h : Entered s) (hm : Move s a t) {w : Fin n} (hu : u ∈ (t.workers w).hand) :
    u ∈ s.graph.ids := by
  rcases hm.hand hu with hold | hqueued
  · exact h.workers w u hold
  · exact h.queued u hqueued

theorem waiting_move (h : Entered s) (hm : Move s a t) (hu : u ∉ t.graph.ids) :
    (t.graph.task u).status.isWaiting = true := by
  have hout : u ∉ s.graph.ids := fun hmem => hu (hm.ids_keep hmem)
  have hwaiting := h.waiting u hout
  cases hm.phase u with
  | same status canRetry => rw [status]; exact hwaiting
  | born new status => rw [status]; rfl
  | @line w now ok line line' act old hline next =>
    exact absurd (h.workers w u (by rw [old]; exact List.mem_singleton_self u)) hout
  | cancelFlag target fresh status => rw [status]; exact hwaiting
  | @cancelStatus c old next status =>
    exact absurd (h.clients c u (by rw [old]; exact List.mem_singleton_self u)) hout
  | notified pos status => rw [status]; rfl

theorem entering_move (h : Entered s) (hm : Move s a t) {c : Fin m}
    (hu : u ∈ (t.clients c).entering) : u ∉ t.graph.ids := by
  intro hids
  rcases hm.entering hu with hold | rfl
  · rcases hm.ids hids with hmem | ⟨d, hd, hgone⟩
    · exact h.entering c u hold hmem
    · -- The submission that has just added the task is the only one of it.
      have hcd : c = d := h.submitter c d u (ClientPc.submitting_of_entering hold)
        (ClientPc.submitting_of_entering hd)
      exact hgone (hcd ▸ hu)
  · rcases hm.ids hids with hmem | ⟨d, hd, _⟩
    · exact absurd (h.known.ids _ hmem) (Nat.lt_irrefl _)
    · have hlt := h.known.clients d _
        (ClientPc.refers_of_submitting (ClientPc.submitting_of_entering hd))
      exact absurd hlt (Nat.lt_irrefl _)

theorem move (h : Entered s) (hm : Move s a t) : Entered t where
  known := h.known.move hm
  submitter _ _ _ hc hd := h.known.submitter_move h.submitter hm hc hd
  queued _ hu := hm.ids_keep (h.queued_move hm hu)
  scheduler _ hu := hm.ids_keep (h.scheduler_move hm hu)
  clients _ _ hu := h.clients_move hm hu
  workers _ _ hu := hm.ids_keep (h.workers_move hm hu)
  waiting _ hu := h.waiting_move hm hu
  entering _ _ hu := h.entering_move hm hu

end Entered

/-! ## The table of promises -/

namespace Move

variable {s t : State m n} {a : Action m n} {u : TaskId}

/-- What a task is constructed with stays as it is, once the task has its id. -/
theorem fixed_of_lt {β : Type} (p : Task → β) (hm : Move s a t) (hlt : u < s.nextTaskId)
    (hp : ∀ k status dependencies dependents count cancelled enqueued attempts startTime endTime,
      p { k with status := status, dependencies := dependencies, dependents := dependents,
                 dependenciesCount := count, cancelled := cancelled, enqueued := enqueued,
                 attempts := attempts, startTime := startTime, endTime := endTime } = p k) :
    p (t.graph.task u) = p (s.graph.task u) := by
  rcases hm.fixed p hp with hsame | ⟨hnew, _⟩
  · exact hsame
  · exact absurd hnew (Nat.ne_of_lt hlt)

theorem wrapsPromise_eq (hm : Move s a t) (hlt : u < s.nextTaskId) :
    (t.graph.task u).wrapsPromise = (s.graph.task u).wrapsPromise :=
  hm.fixed_of_lt (·.wrapsPromise) hlt fun _ _ _ _ _ _ _ _ _ _ => rfl

theorem options_eq (hm : Move s a t) (hlt : u < s.nextTaskId) :
    (t.graph.task u).options = (s.graph.task u).options :=
  hm.fixed_of_lt (·.options) hlt fun _ _ _ _ _ _ _ _ _ _ => rfl

/-- A promise gets into the table from its submission, before the task gets into the graph. -/
theorem table (hm : Move s a t) (hu : u ∈ t.promises.table) :
    u ∈ s.promises.table ∨ ∃ c deps, s.clients c = .register u deps := by
  cases hm with
  | @client c now pc hstep =>
    change u ∈ ((s.clients c).promises s).table at hu
    cases hpc : s.clients c with
    | register x deps =>
      rw [hpc] at hu
      rcases List.mem_append.mp hu with hold | hlast
      · exact .inl hold
      · exact .inr ⟨c, deps, by rw [List.mem_singleton.mp hlast, hpc]⟩
    | cancelPromise x =>
      rw [hpc] at hu
      exact .inl (List.mem_of_mem_erase hu)
    | _ =>
      rw [hpc] at hu
      exact .inl hu
  | @line w now ok x line line' k old hline =>
    change u ∈ (line.promises s x).table at hu
    cases line with
    | fulfillPromise | failPromise => exact .inl (List.mem_of_mem_erase hu)
    | _ => exact .inl hu
  | _ => exact .inl hu

end Move

structure Registered (s : State m n) : Prop where
  known : Known s
  table : ∀ u ∈ s.promises.table, u < s.nextTaskId ∧ (s.graph.task u).wrapsPromise = true
  clients : ∀ c u deps, s.clients c = .register u deps → (s.graph.task u).wrapsPromise = true

theorem registered_start : Registered (start m n) :=
  ⟨known_start, fun u hu => absurd hu (by simp [start]),
    fun c u deps h => absurd h (by simp [start])⟩

namespace Registered

variable {s t : State m n} {a : Action m n} {u : TaskId}

theorem clients_move (h : Registered s) (hm : Move s a t) {c : Fin m} {deps : List TaskId}
    (hc : t.clients c = .register u deps) : (t.graph.task u).wrapsPromise = true := by
  rcases hm.clientMove c with hsame | hmove
  · have old : s.clients c = .register u deps := hsame ▸ hc
    rw [hm.wrapsPromise_eq (h.known.client_lt old (by simp [ClientPc.refers]))]
    exact h.clients c u deps old
  · generalize hold : s.clients c = pc at hmove
    rw [hc] at hmove
    generalize hpc : ClientPc.register u deps = pc' at hmove
    cases hmove with
    | @call op => cases op <;> exact absurd hpc (by simp [Call.entry])
    | quiet hstep =>
      cases hstep with
      | recordAsync hw =>
        obtain ⟨rfl, rfl⟩ := ClientPc.register.inj hpc
        rw [hm.wrapsPromise_eq (h.known.client_lt hold (by simp [ClientPc.refers]))]
        exact hw
      | _ => exact absurd hpc (by simp)
    | _ => exact absurd hpc (by simp)

theorem table_move (h : Registered s) (hm : Move s a t) (hu : u ∈ t.promises.table) :
    u < t.nextTaskId ∧ (t.graph.task u).wrapsPromise = true := by
  have hreg : u < s.nextTaskId ∧ (s.graph.task u).wrapsPromise = true := by
    rcases hm.table hu with hold | ⟨c, deps, old⟩
    · exact h.table u hold
    · exact ⟨h.known.client_lt old (by simp [ClientPc.refers]), h.clients c u deps old⟩
  exact ⟨Nat.lt_of_lt_of_le hreg.1 hm.nextTaskId_le, (hm.wrapsPromise_eq hreg.1).trans hreg.2⟩

theorem move (h : Registered s) (hm : Move s a t) : Registered t where
  known := h.known.move hm
  table _ hu := h.table_move hm hu
  clients _ _ _ hc := h.clients_move hm hc

/-- A task of `submit` or `submit_with_dependencies` has no promise there. -/
theorem notMem (h : Registered s) (hu : (s.graph.task u).wrapsPromise = false) :
    u ∉ s.promises.table := by
  intro hmem
  exact absurd (hu.symm.trans (h.table u hmem).2) (by simp)

end Registered
end Executor
end NexusTask
