import Mathlib.Algebra.Order.BigOperators.Group.Finset
import NexusTask.Executor.Moves
import NexusTask.Lib.Tally
import NexusTask.Lib.Threads

/-!
# Who has a task

`enqueued_` is meant to keep a task from being given to the pool twice. `Tokens` says that it does:
the copies of a task in the pool's queues and with the threads that are about to enqueue it or work
on it are one in number if the flag is set and none otherwise. What `cancel` does to the flag is
harmless under `Orderly`, the condition on the schedule the later modules work under.
-/

set_option autoImplicit false

namespace NexusTask
namespace Executor

open Transition

variable {m n : Nat}

/-! ## Orderly schedules -/

namespace ClientPc

/-- The tasks a client refers to, an argument of `cancel` not yet looked up apart. -/
def refers (pc : ClientPc) : List TaskId := pc.submitting ++ pc.cancelTarget ++ pc.cancelled

theorem refers_entry (op : Call) : op.entry.refers = [] := by cases op <;> rfl

theorem refers_of_submitting {pc : ClientPc} {u : TaskId} (h : u ∈ pc.submitting) :
    u ∈ pc.refers := List.mem_append_left _ (List.mem_append_left _ h)

theorem refers_of_marked {pc : ClientPc} {u : TaskId} (h : u ∈ pc.marked) : u ∈ pc.refers := by
  apply refers_of_submitting
  cases pc <;> simp_all

theorem refers_of_sawReady {pc : ClientPc} {u : TaskId} (h : u ∈ pc.sawReady) :
    u ∈ pc.refers := by
  apply refers_of_submitting
  cases pc <;> simp_all

theorem refers_of_cancelTarget {pc : ClientPc} {u : TaskId} (h : u ∈ pc.cancelTarget) :
    u ∈ pc.refers := List.mem_append_left _ (List.mem_append_right _ h)

end ClientPc

namespace SchedulerPc

def refers (pc : SchedulerPc) : List TaskId := pc.marked ++ pc.polled

end SchedulerPc

namespace State

variable (s : State m n)

/-- No submission has a dependency of `t` still to add. -/
def Complete (t : TaskId) : Prop := ∀ c, (s.clients c).unadded t = []

/-- `t` has all its dependencies, none of them unfinished, and nobody has begun with it. -/
structure Untouched (t : TaskId) : Prop where
  complete : s.Complete t
  count : (s.graph.task t).dependenciesCount = 0
  waiting : (s.graph.task t).status.isWaiting = true
  free : (s.graph.task t).enqueued = false
  nobody : ∀ w, t ∉ (s.workers w).hand

instance (t : TaskId) : Decidable (s.Complete t) :=
  inferInstanceAs (Decidable (∀ c, (s.clients c).unadded t = []))

instance (t : TaskId) : Decidable (s.Untouched t) :=
  decidable_of_iff
    (s.Complete t ∧ (s.graph.task t).dependenciesCount = 0 ∧ (s.graph.task t).status.isWaiting = true ∧
      (s.graph.task t).enqueued = false ∧ ∀ w, t ∉ (s.workers w).hand)
    ⟨fun ⟨h₁, h₂, h₃, h₄, h₅⟩ => ⟨h₁, h₂, h₃, h₄, h₅⟩,
      fun ⟨h₁, h₂, h₃, h₄, h₅⟩ => ⟨h₁, h₂, h₃, h₄, h₅⟩⟩

end State

/-- A poll returns no task whose submission has dependencies still to add. -/
def PollComplete (s : State m n) : Action m n → Prop
  | .poll order => ∀ t ∈ order, s.Complete t
  | _ => True

/-- A successful `try_mark_enqueued` is on a task still waiting to be executed. -/
def MarkFresh (s : State m n) (a : Action m n) : Prop :=
  ∀ t ∈ s.markTarget a, (s.graph.task t).enqueued = false →
    (s.graph.task t).status.isWaiting = true ∧ (s.graph.task t).cancelled = false

/-- A `cancel` takes effect on untouched tasks only. That the counter is 0 and the flag clear is
more than some runs need: a task cancelled while it waits for a dependency that never ends is
notified for once all the same, and so is a queued one that no worker gets to. -/
def CancelUntouched (s : State m n) (a : Action m n) : Prop :=
  ∀ t ∈ s.cancelTarget a, (s.graph.task t).cancelled = false → s.Untouched t

/-- The condition on a step under which a task is executed after its dependencies and finished
once. -/
structure Orderly (s : State m n) (a : Action m n) : Prop where
  poll : PollComplete s a
  mark : MarkFresh s a
  cancel : CancelUntouched s a

instance (s : State m n) : (a : Action m n) → Decidable (PollComplete s a)
  | .poll order => inferInstanceAs (Decidable (∀ t ∈ order, s.Complete t))
  | .call _ _ | .client _ _ | .scheduler | .take _ _ | .worker _ _ _ => .isTrue trivial

instance (s : State m n) (a : Action m n) : Decidable (MarkFresh s a) :=
  inferInstanceAs (Decidable (∀ t ∈ s.markTarget a, _ → _ ∧ _))

instance (s : State m n) (a : Action m n) : Decidable (CancelUntouched s a) :=
  inferInstanceAs (Decidable (∀ t ∈ s.cancelTarget a, _ → _))

instance (s : State m n) (a : Action m n) : Decidable (Orderly s a) :=
  decidable_of_iff (PollComplete s a ∧ MarkFresh s a ∧ CancelUntouched s a)
    ⟨fun ⟨h₁, h₂, h₃⟩ => ⟨h₁, h₂, h₃⟩, fun ⟨h₁, h₂, h₃⟩ => ⟨h₁, h₂, h₃⟩⟩

/-! ## Ids that are not yet given out -/

/-- Everything the threads, the pool and the graph refer to has an id below `next_task_id_`, and the
tasks from there on do not exist yet. -/
structure Known (s : State m n) : Prop where
  queued : ∀ t ∈ s.queued, t < s.nextTaskId
  ids : ∀ t ∈ s.graph.ids, t < s.nextTaskId
  dependents : ∀ d, ∀ t ∈ (s.graph.task d).dependents, t < s.nextTaskId
  scheduler : ∀ t ∈ s.scheduler.refers, t < s.nextTaskId
  clients : ∀ c, ∀ t ∈ (s.clients c).refers, t < s.nextTaskId
  workers : ∀ w, ∀ t ∈ (s.workers w).hand, t < s.nextTaskId
  unborn : ∀ t, s.nextTaskId ≤ t → s.graph.task t = { id := t }

theorem known_start : Known (start m n) where
  queued := by simp [start]
  ids := by simp [start]
  dependents := by simp [start]
  scheduler := by simp [start, SchedulerPc.refers]
  clients := by simp [start, ClientPc.refers]
  workers := by simp [start]
  unborn := fun _ _ => rfl

theorem ClientStep.refers {s : State m n} {pc pc' : ClientPc} (h : ClientStep s pc pc')
    {t : TaskId} (ht : t ∈ pc'.refers) : t ∈ pc.refers ∨ t ∈ s.graph.ids := by
  cases h with
  | found hmem => simp_all [ClientPc.refers]
  | _ => simp_all [ClientPc.refers]

/-- What a step does to the graph, to `next_task_id_` and to the edges. A task that is touched
keeps its edges. -/
inductive GraphStep (s : State m n) : DependencyGraph → TaskId → List Edge → Prop
  | same : GraphStep s s.graph s.nextTaskId s.edges
  | newTask (k : Task) (fresh : k.SameEdges (s.graph.task s.nextTaskId)) :
      GraphStep s (s.graph.modify s.nextTaskId fun _ => k) (s.nextTaskId + 1) s.edges
  | addTask {c t deps} (old : s.clients c = .add t deps) :
      GraphStep s (s.graph.addTask t) s.nextTaskId s.edges
  | addDependency {c t d rest} (old : s.clients c = .edges t (d :: rest)) :
      GraphStep s (s.graph.addDependency t d) s.nextTaskId (s.addDependency t d).edges
  | notify (d : TaskId) :
      GraphStep s (s.graph.notifyTaskCompleted d) s.nextTaskId (s.notify d).edges
  | touch {t : TaskId} {f : Task → Task} (known : t < s.nextTaskId)
      (same : (f (s.graph.task t)).SameEdges (s.graph.task t)) :
      GraphStep s (s.graph.modify t f) s.nextTaskId s.edges

namespace Move

variable {s t : State m n} {a : Action m n}

/-- The scheduler gets its tasks from polls. -/
theorem scheduler_refers (hm : Move s a t) {u : TaskId} (hu : u ∈ t.scheduler.refers) :
    u ∈ s.scheduler.refers ∨ ∃ order, a = .poll order ∧ u ∈ order ∧ u ∈ s.graph.getReadyTasks := by
  cases hm with
  | @polls order old perm =>
    have horder : u ∈ order := by simpa [State.setScheduler, SchedulerPc.refers] using hu
    exact .inr ⟨order, rfl, horder, perm.mem_iff.mp horder⟩
  | schedulerRests old => exact absurd hu (by simp [State.setScheduler, SchedulerPc.refers])
  | schedulerLoses old =>
    left
    simp only [State.setScheduler, SchedulerPc.refers] at hu ⊢
    simp_all
  | schedulerMarks old free =>
    left
    simp only [State.setScheduler, SchedulerPc.refers] at hu ⊢
    simp_all
  | schedulerEnqueues old =>
    left
    simp only [State.setScheduler, SchedulerPc.refers] at hu ⊢
    simp_all
  | _ => exact .inl hu

/-- The pool gets its tasks from the threads that have marked them. -/
theorem queued (hm : Move s a t) {u : TaskId} (hu : u ∈ t.queued) :
    u ∈ s.queued ∨ (∃ c, u ∈ (s.clients c).marked) ∨ u ∈ s.scheduler.marked ∨
      ∃ w, s.workers w = .busy .resubmit u := by
  have hadded : ∀ {x : TaskId}, u ∈ s.queued ++ [x] → u ∈ s.queued ∨ u = x := fun h =>
    (List.mem_append.mp h).imp id List.mem_singleton.mp
  cases hm with
  | @clientEnqueues c now x old =>
    rcases hadded hu with hold | rfl
    · exact .inl hold
    · exact .inr (.inl ⟨c, by rw [old]; exact List.mem_singleton_self u⟩)
  | schedulerEnqueues old =>
    rcases hadded hu with hold | rfl
    · exact .inl hold
    · exact .inr (.inr (.inl (by rw [old]; exact List.mem_singleton_self u)))
  | @resubmits w now ok x old =>
    rcases hadded hu with hold | rfl
    · exact .inl hold
    · exact .inr (.inr (.inr ⟨w, old⟩))
  | takes old mem => exact .inl (List.mem_of_mem_erase hu)
  | _ => exact .inl hu

/-- A worker gets its task from a queue and keeps it to the end of the round. -/
theorem hand (hm : Move s a t) {w : Fin n} {u : TaskId} (hu : u ∈ (t.workers w).hand) :
    u ∈ (s.workers w).hand ∨ u ∈ s.queued := by
  rcases hm.workerMove w with hsame | hmove
  · exact .inl (hsame ▸ hu)
  · generalize s.workers w = pc, t.workers w = pc' at hmove hu
    cases hmove with
    | takes mem => exact .inr ((List.mem_singleton.mp hu).symm ▸ mem)
    | line act h => exact .inl hu
    | notifies | resetsFlag | remarks => exact .inl hu
    | clears | remarkLoses | resubmits => exact absurd hu (by simp)

/-- A client gets its task from `next_task_id_` or from the graph. -/
theorem client_refers (hm : Move s a t) {c : Fin m} {u : TaskId} (hu : u ∈ (t.clients c).refers) :
    u ∈ (s.clients c).refers ∨ u ∈ s.graph.ids ∨
      u = s.nextTaskId ∧ t.nextTaskId = s.nextTaskId + 1 := by
  rcases hm.clientMove c with hsame | hmove
  · exact .inl (hsame ▸ hu)
  · generalize s.clients c = pc, t.clients c = pc' at hmove hu
    cases hmove with
    | quiet h => exact (h.refers hu).imp id .inl
    | newTask next named =>
      simp only [ClientPc.refers, ClientPc.submitting, ClientPc.cancelTarget, ClientPc.cancelled,
        ClientPc.cancelling, List.append_nil, List.mem_singleton] at hu
      exact .inr (.inr ⟨hu, next⟩)
    | call => exact absurd (ClientPc.refers_entry _ ▸ hu) List.not_mem_nil
    | enqueues | cancelClear => exact absurd hu (by simp [ClientPc.refers])
    | _ => exact .inl hu

theorem nextTaskId_le (hm : Move s a t) : s.nextTaskId ≤ t.nextTaskId := by
  cases hm with
  | newTask now old => exact Nat.le_succ _
  | _ => exact Nat.le_refl _

end Move

namespace Known

variable {s t : State m n} {a : Action m n}

theorem client_lt (h : Known s) {c : Fin m} {pc : ClientPc} {u : TaskId} (old : s.clients c = pc)
    (hu : u ∈ pc.refers) : u < s.nextTaskId := h.clients c u (old ▸ hu)

theorem worker_lt (h : Known s) {w : Fin n} {line : Line} {u : TaskId}
    (old : s.workers w = .busy line u) : u < s.nextTaskId :=
  h.workers w u (by rw [old]; exact List.mem_singleton_self u)

theorem scheduler_lt (h : Known s) {pc : SchedulerPc} {u : TaskId} (old : s.scheduler = pc)
    (hu : u ∈ pc.refers) : u < s.nextTaskId := h.scheduler u (old ▸ hu)

theorem cancelTarget_lt (h : Known s) {u : TaskId} (hu : u ∈ s.cancelTarget a) :
    u < s.nextTaskId := by
  cases a with
  | client c now => exact h.clients c u (ClientPc.refers_of_cancelTarget hu)
  | _ => exact absurd hu (by simp [State.cancelTarget])

theorem queued_move (h : Known s) (hm : Move s a t) {u : TaskId} (hu : u ∈ t.queued) :
    u < t.nextTaskId := by
  refine Nat.lt_of_lt_of_le ?_ hm.nextTaskId_le
  rcases hm.queued hu with hold | ⟨c, hc⟩ | hscheduler | ⟨w, hw⟩
  · exact h.queued u hold
  · exact h.clients c u (ClientPc.refers_of_marked hc)
  · exact h.scheduler u (List.mem_append_left _ hscheduler)
  · exact h.worker_lt hw

theorem ids_move (h : Known s) (hm : Move s a t) {u : TaskId} (hu : u ∈ t.graph.ids) :
    u < t.nextTaskId := by
  refine Nat.lt_of_lt_of_le ?_ hm.nextTaskId_le
  cases hm with
  | addTask old =>
    rcases DependencyGraph.mem_addTask.mp hu with hold | rfl
    · exact h.ids u hold
    · exact h.client_lt old (by simp [ClientPc.refers])
  | addDependency old => exact h.ids u (State.addDependency_ids ▸ hu)
  | cancelNotify old => exact h.ids u (State.notify_ids ▸ hu)
  | workerNotifies old => exact h.ids u (State.notify_ids ▸ hu)
  | _ => exact h.ids u hu

theorem graphStep (h : Known s) (hm : Move s a t) :
    GraphStep s t.graph t.nextTaskId t.edges := by
  cases hm with
  | newTask now old =>
    refine .newTask _ ?_
    rw [h.unborn _ (Nat.le_refl _)]
    exact ⟨rfl, rfl, rfl⟩
  | addTask old => exact .addTask old
  | addDependency old => exact .addDependency old
  | clientMarks old free =>
    rw [State.setClient_graph, State.modify_graph]
    exact .touch (h.client_lt old (by simp [ClientPc.refers])) ⟨rfl, rfl, rfl⟩
  | cancelFlag old fresh =>
    rw [State.setClient_graph, State.modify_graph]
    exact .touch (h.client_lt old (by simp [ClientPc.refers])) ⟨rfl, rfl, rfl⟩
  | cancelStatus old =>
    rw [State.setClient_graph, State.modify_graph]
    exact .touch (h.client_lt old (by simp [ClientPc.refers])) ⟨rfl, rfl, rfl⟩
  | cancelNotify old => exact .notify _
  | cancelClear old =>
    rw [State.setClient_graph, State.modify_graph]
    exact .touch (h.client_lt old (by simp [ClientPc.refers])) ⟨rfl, rfl, rfl⟩
  | schedulerMarks old free =>
    rw [State.setScheduler_graph, State.modify_graph]
    exact .touch (h.scheduler_lt old (by simp [SchedulerPc.refers])) ⟨rfl, rfl, rfl⟩
  | line old hline =>
    rw [State.goto_graph, State.modify_graph]
    exact .touch (h.worker_lt old)
      ⟨hline.frame (·.dependencies) fun _ _ _ _ _ => rfl,
        hline.frame (·.dependents) fun _ _ _ _ _ => rfl,
        hline.frame (·.dependenciesCount) fun _ _ _ _ _ => rfl⟩
  | workerNotifies old => exact .notify _
  | clears old =>
    rw [State.finish_graph, State.modify_graph]
    exact .touch (h.worker_lt old) ⟨rfl, rfl, rfl⟩
  | resetsFlag old =>
    rw [State.goto_graph, State.modify_graph]
    exact .touch (h.worker_lt old) ⟨rfl, rfl, rfl⟩
  | remarks old free =>
    rw [State.goto_graph, State.modify_graph]
    exact .touch (h.worker_lt old) ⟨rfl, rfl, rfl⟩
  | _ => exact .same

theorem dependents_step (h : Known s) {g : DependencyGraph} {next d u : TaskId}
    {edges : List Edge} (hg : GraphStep s g next edges) (hu : u ∈ (g.task d).dependents) :
    u < s.nextTaskId := by
  cases hg with
  | same => exact h.dependents d u hu
  | newTask k fresh =>
    rw [DependencyGraph.modify_frame (·.dependents) fresh.dependents] at hu
    exact h.dependents d u hu
  | addTask old => exact h.dependents d u hu
  | addDependency old =>
    rcases DependencyGraph.mem_addDependency_dependents hu with hold | rfl
    · exact h.dependents d u hold
    · exact h.client_lt old (by simp [ClientPc.refers])
  | notify e =>
    rw [DependencyGraph.notifyTaskCompleted_frame (·.dependents) fun _ _ _ => rfl] at hu
    exact h.dependents d u hu
  | touch known same =>
    rw [DependencyGraph.modify_frame (·.dependents) same.dependents] at hu
    exact h.dependents d u hu

/-- Tasks that do not exist are not touched. -/
theorem unborn_step (h : Known s) {g : DependencyGraph} {next u : TaskId} {edges : List Edge}
    (hg : GraphStep s g next edges) (hu : next ≤ u) : g.task u = s.graph.task u := by
  cases hg with
  | same => rfl
  | newTask k fresh => exact DependencyGraph.modify_of_ne (Nat.ne_of_gt hu)
  | addTask old => rfl
  | @addDependency c t d rest old =>
    unfold DependencyGraph.addDependency
    split
    next hmem =>
      rw [DependencyGraph.modify_of_ne (Nat.ne_of_gt (Nat.lt_of_lt_of_le (h.ids d hmem.2) hu)),
        DependencyGraph.modify_of_ne (Nat.ne_of_gt (Nat.lt_of_lt_of_le (h.ids t hmem.1) hu))]
    next => rfl
  | notify e =>
    exact DependencyGraph.notifyTaskCompleted_of_notDependent fun hmem =>
      absurd (h.dependents e u hmem) (Nat.not_lt.mpr hu)
  | touch known same => exact DependencyGraph.modify_of_ne (Nat.ne_of_gt (Nat.lt_of_lt_of_le known hu))

theorem scheduler_move (h : Known s) (hm : Move s a t) {u : TaskId}
    (hu : u ∈ t.scheduler.refers) : u < t.nextTaskId := by
  refine Nat.lt_of_lt_of_le ?_ hm.nextTaskId_le
  rcases hm.scheduler_refers hu with hold | ⟨order, _, _, hready⟩
  · exact h.scheduler u hold
  · exact h.ids u (DependencyGraph.mem_getReadyTasks.mp hready).1

theorem clients_move (h : Known s) (hm : Move s a t) {c : Fin m} {u : TaskId}
    (hu : u ∈ (t.clients c).refers) : u < t.nextTaskId := by
  rcases hm.client_refers hu with hold | hmem | ⟨rfl, hnext⟩
  · exact Nat.lt_of_lt_of_le (h.clients c u hold) hm.nextTaskId_le
  · exact Nat.lt_of_lt_of_le (h.ids u hmem) hm.nextTaskId_le
  · rw [hnext]
    exact Nat.lt_succ_self s.nextTaskId

theorem workers_move (h : Known s) (hm : Move s a t) {w : Fin n} {u : TaskId}
    (hu : u ∈ (t.workers w).hand) : u < t.nextTaskId := by
  refine Nat.lt_of_lt_of_le ?_ hm.nextTaskId_le
  rcases hm.hand hu with hold | hqueued
  · exact h.workers w u hold
  · exact h.queued u hqueued

theorem move (h : Known s) (hm : Move s a t) : Known t where
  queued _ := h.queued_move hm
  ids _ := h.ids_move hm
  dependents _ _ hu := Nat.lt_of_lt_of_le (h.dependents_step (h.graphStep hm) hu) hm.nextTaskId_le
  scheduler _ := h.scheduler_move hm
  clients _ _ := h.clients_move hm
  workers _ _ := h.workers_move hm
  unborn u hu := by
    rw [h.unborn_step (h.graphStep hm) hu]
    exact h.unborn u (Nat.le_trans hm.nextTaskId_le hu)

end Known

/-! ## The copies of a task -/

namespace State

/-- How often a task is in the pool's queues, about to be enqueued, or with a worker it is enqueued
on behalf of. -/
def copies (s : State m n) (u : TaskId) : Nat :=
  s.queued.count u + tally (ClientPc.marked ∘ s.clients) u + s.scheduler.marked.count u
    + tally (WorkerPc.held ∘ s.workers) u

variable (s : State m n) (u t : TaskId)

theorem copies_setClient {c : Fin m} {old : ClientPc} (hold : s.clients c = old) (pc : ClientPc) :
    (s.setClient c pc).copies u + old.marked.count u = s.copies u + pc.marked.count u := by
  subst hold
  have hsum := tally_update (ClientPc.marked ∘ s.clients) c pc.marked u
  simp only [copies, setClient, Function.comp_update, Function.comp_apply] at hsum ⊢
  omega

theorem copies_setWorker {w : Fin n} {old : WorkerPc} (hold : s.workers w = old) (pc : WorkerPc) :
    (s.setWorker w pc).copies u + old.held.count u = s.copies u + pc.held.count u := by
  subst hold
  have hsum := tally_update (WorkerPc.held ∘ s.workers) w pc.held u
  simp only [copies, setWorker, Function.comp_update, Function.comp_apply] at hsum ⊢
  omega

theorem copies_setScheduler {old : SchedulerPc} (hold : s.scheduler = old) (pc : SchedulerPc) :
    (s.setScheduler pc).copies u + old.marked.count u = s.copies u + pc.marked.count u := by
  subst hold
  simp only [copies, setScheduler]
  omega

theorem copies_enqueue : (s.enqueue t).copies u = s.copies u + [t].count u := by
  simp only [copies, enqueue, List.count_append]
  omega

theorem count_held_le (w : Fin n) : (s.workers w).held.count u ≤ s.copies u := by
  have hle := le_tally (WorkerPc.held ∘ s.workers) w u
  simp only [copies, Function.comp_apply] at hle ⊢
  omega

/-- The flag as a number. -/
def flag : Nat := (s.graph.task u).enqueued.toNat

theorem flag_le : s.flag u ≤ 1 := Bool.toNat_le _

theorem flag_of_free {s : State m n} {u : TaskId} (h : (s.graph.task u).enqueued = false) :
    s.flag u = 0 := by simp [flag, h]

theorem flag_mark : (s.modify t fun k => { k with enqueued := true }).flag u
    = if u = t then 1 else s.flag u := by
  unfold flag
  by_cases h : u = t
  · subst h; simp
  · simp [h, DependencyGraph.modify_of_ne]

theorem flag_clear : (s.modify t Task.clearEnqueuedFlag).flag u
    = if u = t then 0 else s.flag u := by
  unfold flag
  by_cases h : u = t
  · subst h; simp [Task.clearEnqueuedFlag]
  · simp [h, DependencyGraph.modify_of_ne]

end State

/-- Nobody has a copy of a task but whoever set its flag. `cancel` clears the flag of tasks only
whose flag is not set. -/
structure Tokens (s : State m n) : Prop where
  copies : ∀ u, s.copies u = s.flag u
  cancelled : ∀ c, ∀ u ∈ (s.clients c).cancelled, (s.graph.task u).cancelled = true
  untaken : ∀ u, (s.graph.task u).cancelled = true → (s.graph.task u).enqueued = false

theorem tokens_start : Tokens (start m n) where
  copies u := by
    have hclients : tally (ClientPc.marked ∘ (start m n).clients) u = 0 :=
      tally_eq_zero (fun _ => rfl) u
    have hworkers : tally (WorkerPc.held ∘ (start m n).workers) u = 0 :=
      tally_eq_zero (fun _ => rfl) u
    simp only [State.copies, hclients, hworkers]
    rfl
  cancelled c u hu := absurd hu (by simp [start])
  untaken u hu := absurd hu (by simp [start])

/-- What a step does to the two flags of a task. -/
inductive FlagStep (s : State m n) (a : Action m n) (u : TaskId) (k : Task) : Prop
  | same (cancelled : k.cancelled = (s.graph.task u).cancelled)
      (enqueued : k.enqueued = (s.graph.task u).enqueued)
  | clear (clearer : (∃ c, s.clients c = .cancelClear u) ∨
        ∃ w line, s.workers w = .busy line u ∧ (line = .clear ∨ line = .resetFlag))
      (cancelled : k.cancelled = (s.graph.task u).cancelled) (enqueued : k.enqueued = false)
  | mark (target : u ∈ s.markTarget a) (free : (s.graph.task u).enqueued = false)
      (cancelled : k.cancelled = (s.graph.task u).cancelled)
  | cancel (target : u ∈ s.cancelTarget a) (fresh : (s.graph.task u).cancelled = false)
      (cancelled : k.cancelled = true) (enqueued : k.enqueued = (s.graph.task u).enqueued)

namespace FlagStep

variable {s : State m n} {a : Action m n} {t u : TaskId} {f : Task → Task}

theorem of_same (hc : (f (s.graph.task t)).cancelled = (s.graph.task t).cancelled)
    (he : (f (s.graph.task t)).enqueued = (s.graph.task t).enqueued) :
    FlagStep s a u ((s.graph.modify t f).task u) :=
  .same (DependencyGraph.modify_frame (·.cancelled) hc)
    (DependencyGraph.modify_frame (·.enqueued) he)

/-- A step on the flags of one task leaves those of the others alone. -/
theorem of_modify (h : FlagStep s a t (f (s.graph.task t))) :
    FlagStep s a u ((s.graph.modify t f).task u) := by
  by_cases hu : u = t
  · subst hu
    rw [DependencyGraph.modify_self]
    exact h
  · rw [DependencyGraph.modify_of_ne hu]
    exact .same rfl rfl

theorem of_notify (d : TaskId) : FlagStep s a u ((s.graph.notifyTaskCompleted d).task u) :=
  .same (DependencyGraph.notifyTaskCompleted_frame (·.cancelled) fun _ _ _ => rfl)
    (DependencyGraph.notifyTaskCompleted_frame (·.enqueued) fun _ _ _ => rfl)

end FlagStep

theorem Move.flags {s t : State m n} {a : Action m n} (hm : Move s a t) (hknown : Known s)
    (u : TaskId) : FlagStep s a u (t.graph.task u) := by
  cases hm with
  | newTask now old =>
    rw [State.setClient_graph, State.newTask_graph]
    have hunborn := hknown.unborn _ (Nat.le_refl _)
    exact .of_same (by rw [hunborn]) (by rw [hunborn])
  | addDependency old =>
    exact .same (DependencyGraph.addDependency_frame (·.cancelled) fun _ _ _ _ => rfl)
      (DependencyGraph.addDependency_frame (·.enqueued) fun _ _ _ _ => rfl)
  | clientMarks old free =>
    rw [State.setClient_graph, State.modify_graph]
    exact .of_modify (.mark (by simp [State.markTarget, old]) free rfl)
  | cancelFlag old fresh =>
    rw [State.setClient_graph, State.modify_graph]
    exact .of_modify (.cancel (by simp [State.cancelTarget, old]) fresh rfl rfl)
  | cancelStatus old =>
    rw [State.setClient_graph, State.modify_graph]
    exact .of_same rfl rfl
  | cancelNotify old => exact .of_notify _
  | @cancelClear c now x old =>
    rw [State.setClient_graph, State.modify_graph]
    exact .of_modify (.clear (.inl ⟨c, old⟩) rfl rfl)
  | schedulerMarks old free =>
    rw [State.setScheduler_graph, State.modify_graph]
    exact .of_modify (.mark (by simp [State.markTarget, old]) free rfl)
  | line old hline =>
    rw [State.goto_graph, State.modify_graph]
    exact .of_same (hline.frame (·.cancelled) fun _ _ _ _ _ => rfl)
      (hline.frame (·.enqueued) fun _ _ _ _ _ => rfl)
  | workerNotifies old => exact .of_notify _
  | @clears w now ok x old =>
    rw [State.finish_graph, State.modify_graph]
    exact .of_modify (.clear (.inr ⟨w, .clear, old, .inl rfl⟩) rfl rfl)
  | @resetsFlag w now ok x old =>
    rw [State.goto_graph, State.modify_graph]
    exact .of_modify (.clear (.inr ⟨w, .resetFlag, old, .inr rfl⟩) rfl rfl)
  | remarks old free =>
    rw [State.goto_graph, State.modify_graph]
    exact .of_modify (.mark (by simp [State.markTarget, old]) free rfl)
  | _ => exact .same rfl rfl

/-- `cancelled_` is never reset. -/
theorem FlagStep.cancelled_mono {s : State m n} {a : Action m n} {u : TaskId} {k : Task}
    (h : FlagStep s a u k) (hu : (s.graph.task u).cancelled = true) : k.cancelled = true := by
  cases h with
  | same hc he => exact hc.trans hu
  | clear clearer hc he => exact hc.trans hu
  | mark target free hc => exact hc.trans hu
  | cancel target fresh hc he => exact hc

theorem ClientStep.cancelled_subset {s : State m n} {pc pc' : ClientPc} (h : ClientStep s pc pc')
    {u : TaskId} (hu : u ∈ pc'.cancelled) : u ∈ pc.cancelled := by
  cases h with
  | _ => simp_all

/-- A client gets a task to cancel by setting its flag. -/
theorem Move.cancelled {s t : State m n} {a : Action m n} (hm : Move s a t) {c : Fin m}
    {u : TaskId} (hu : u ∈ (t.clients c).cancelled) :
    u ∈ (s.clients c).cancelled ∨
      (s.graph.task u).cancelled = false ∧ (t.graph.task u).cancelled = true := by
  rcases hm.clientMove c with hsame | hmove
  · exact .inl (hsame ▸ hu)
  · generalize s.clients c = pc, t.clients c = pc' at hmove hu
    cases hmove with
    | call => exact absurd (Call.entry_cancelled _ ▸ hu) List.not_mem_nil
    | quiet h => exact .inl (h.cancelled_subset hu)
    | cancelFlag target fresh flag =>
      obtain rfl := List.mem_singleton.mp hu
      exact .inr ⟨fresh, flag⟩
    | cancelStatus | cancelNotify => exact .inl hu
    | _ => exact absurd hu (by simp)

theorem ClientStep.marked {s : State m n} {pc pc' : ClientPc} (h : ClientStep s pc pc') :
    pc.marked = [] ∧ pc'.marked = [] := by
  cases h <;> exact ⟨rfl, rfl⟩

theorem LineStep.holds {s : State m n} {u : TaskId} {now : Int} {ok : Bool} {k : Task}
    {line line' : Line} (h : LineStep s u now ok line line' k) :
    line.holds = true ∧ line'.holds = true := by
  cases h <;> exact ⟨rfl, rfl⟩

namespace Tokens

variable {s t : State m n} {a : Action m n}

/-- A task that a thread holds is flagged. -/
theorem enqueued_of_pos (h : Tokens s) {u : TaskId} (hu : 0 < s.copies u) :
    (s.graph.task u).enqueued = true := by
  by_contra hfree
  have hzero := State.flag_of_free (Bool.eq_false_iff.mpr hfree)
  rw [h.copies u, hzero] at hu
  exact Nat.lt_irrefl 0 hu

theorem enqueued_of_queued (h : Tokens s) {u : TaskId} (hu : u ∈ s.queued) :
    (s.graph.task u).enqueued = true := by
  apply h.enqueued_of_pos
  have hcount := List.count_pos_iff.mpr hu
  unfold State.copies
  omega

theorem held_pos {s : State m n} {w : Fin n} {line : Line} {u : TaskId}
    (old : s.workers w = .busy line u) (hline : line.holds = true) : 0 < s.copies u := by
  refine Nat.lt_of_lt_of_le ?_ (s.count_held_le u w)
  simp [old, hline]

/-- A worker that keeps its copy. -/
theorem copies_goto {w : Fin n} {line line' : Line} {x : TaskId}
    (old : s.workers w = .busy line x) (hline : line.holds = true) (hline' : line'.holds = true)
    (u : TaskId) : (s.goto w x line').copies u = s.copies u := by
  have hset := s.copies_setWorker u old (.busy line' x)
  simp only [WorkerPc.held, hline, hline', if_true] at hset
  exact Nat.add_right_cancel hset

/-- A client that has no copy before or after. -/
theorem copies_client {c : Fin m} {old pc : ClientPc} (hold : s.clients c = old)
    (hold' : old.marked = []) (hpc : pc.marked = []) (u : TaskId) :
    (s.setClient c pc).copies u = s.copies u := by
  have hset := s.copies_setClient u hold pc
  rw [hold', hpc] at hset
  exact Nat.add_right_cancel hset

theorem flag_modify {x : TaskId} {f : Task → Task}
    (hf : (f (s.graph.task x)).enqueued = (s.graph.task x).enqueued) (u : TaskId) :
    (s.modify x f).flag u = s.flag u :=
  congrArg Bool.toNat (State.modify_frame (·.enqueued) hf)

/-- Setting the flag of a task nobody has makes room for one copy. -/
theorem flag_mark (h : Tokens s) {x u : TaskId} (free : (s.graph.task x).enqueued = false)
    {copies : Nat} (hcopies : copies = s.copies u + [x].count u) :
    copies = (s.modify x fun k => { k with enqueued := true }).flag u := by
  rw [hcopies, h.copies u, State.flag_mark]
  by_cases hu : u = x
  · subst hu
    simp [State.flag_of_free free]
  · simp [hu, Ne.symm hu]

/-- Clearing the flag of a task takes its only copy away. -/
theorem flag_clear (h : Tokens s) {x u : TaskId} (hpos : 0 < s.copies x) {copies : Nat}
    (hcopies : copies + [x].count u = s.copies u) :
    copies = (s.modify x Task.clearEnqueuedFlag).flag u := by
  rw [h.copies u] at hcopies
  rw [State.flag_clear]
  by_cases hu : u = x
  · subst hu
    have hle := s.flag_le u
    simp only [List.count_singleton_self, if_true] at hcopies ⊢
    omega
  · simp only [hu, if_false, List.count_singleton, Ne.symm hu, beq_iff_eq, Nat.add_zero] at hcopies ⊢
    exact hcopies

theorem copies_move (h : Tokens s) (hknown : Known s) (hm : Move s a t) (u : TaskId) :
    t.copies u = t.flag u := by
  have hcopies := h.copies u
  cases hm with
  | call old => exact (copies_client old rfl (Call.entry_marked _) u).trans hcopies
  | client hstep =>
    exact (copies_client rfl hstep.marked.1 hstep.marked.2 u).trans hcopies
  | @newTask c deps options async now old =>
    refine (copies_client old rfl rfl u).trans (hcopies.trans (congrArg Bool.toNat ?_))
    rw [State.setClient_graph, State.newTask_graph]
    refine (DependencyGraph.modify_frame (·.enqueued) ?_).symm
    rw [hknown.unborn _ (Nat.le_refl _)]
  | addTask old => exact (copies_client old rfl rfl u).trans hcopies
  | addDependency old =>
    refine (copies_client old rfl rfl u).trans (hcopies.trans ?_)
    exact congrArg Bool.toNat (State.addDependency_frame (·.enqueued) fun _ _ _ _ => rfl).symm
  | @clientMarks c now x old free =>
    exact h.flag_mark free (s.copies_setClient u old (.enqueue x))
  | @clientEnqueues c now x old =>
    exact ((State.copies_enqueue ..).trans (s.copies_setClient u old .idle)).trans hcopies
  | cancelFlag old fresh =>
    refine (copies_client old rfl rfl u).trans (hcopies.trans ?_)
    exact (flag_modify (f := fun k => { k with cancelled := true }) rfl u).symm
  | cancelStatus old =>
    refine (copies_client old rfl rfl u).trans (hcopies.trans ?_)
    exact (flag_modify (f := fun k => { k with status := .cancelled }) rfl u).symm
  | cancelNotify old =>
    refine (copies_client old rfl rfl u).trans (hcopies.trans ?_)
    exact congrArg Bool.toNat (State.notify_frame (·.enqueued) fun _ _ _ => rfl).symm
  | @cancelClear c now x old =>
    have hcancelled : (s.graph.task x).cancelled = true := h.cancelled c x (by simp [old])
    have hfree := h.untaken x hcancelled
    refine (copies_client old rfl rfl u).trans (hcopies.trans ?_)
    exact (flag_modify (f := Task.clearEnqueuedFlag) hfree.symm u).symm
  | @polls order old perm =>
    exact (Nat.add_right_cancel (s.copies_setScheduler u old (.marking order))).trans hcopies
  | schedulerRests old =>
    exact (Nat.add_right_cancel (s.copies_setScheduler u old .idle)).trans hcopies
  | @schedulerLoses x rest old =>
    exact (Nat.add_right_cancel (s.copies_setScheduler u old (.marking rest))).trans hcopies
  | @schedulerMarks x rest old free =>
    exact h.flag_mark free (s.copies_setScheduler u old (.submitting x rest))
  | @schedulerEnqueues x rest old =>
    have hset := s.copies_setScheduler u old (.marking rest)
    exact ((State.copies_enqueue ..).trans hset).trans hcopies
  | @takes w x old mem =>
    -- The copy moves from the queue to the worker.
    have hset := s.copies_setWorker u old (.busy .onStart x)
    refine Eq.trans ?_ hcopies
    have herase : (s.queued.erase x).count u + [x].count u = s.queued.count u := by
      rw [List.count_erase, List.count_singleton]
      have hpos := List.count_pos_iff.mpr mem
      by_cases hu : x = u
      · subst hu; simp; omega
      · simp [hu]
    simp only [State.goto, State.setWorker, State.copies, WorkerPc.held, Line.holds, List.count_nil]
      at hset ⊢
    simp only [bne_iff_ne, ne_eq, reduceCtorEq, not_false_eq_true, if_true] at hset ⊢
    omega
  | @line w now ok x line line' k' old hline =>
    refine (copies_goto old hline.holds.1 hline.holds.2 u).trans (hcopies.trans ?_)
    exact (flag_modify (f := fun _ => k') (hline.frame (·.enqueued) fun _ _ _ _ _ => rfl) u).symm
  | workerNotifies old =>
    refine (copies_goto old rfl rfl u).trans (hcopies.trans ?_)
    exact congrArg Bool.toNat (State.notify_frame (·.enqueued) fun _ _ _ => rfl).symm
  | @clears w now ok x old =>
    exact h.flag_clear (held_pos old rfl) (s.copies_setWorker u old .idle)
  | @resetsFlag w now ok x old =>
    exact h.flag_clear (held_pos old rfl) (s.copies_setWorker u old (.busy .remark x))
  | @remarks w now ok x old free =>
    exact h.flag_mark free (s.copies_setWorker u old (.busy .resubmit x))
  | @remarkLoses w now ok x old =>
    exact (Nat.add_right_cancel (s.copies_setWorker u old .idle)).trans hcopies
  | @resubmits w now ok x old =>
    exact ((State.copies_enqueue ..).trans (s.copies_setWorker u old .idle)).trans hcopies

theorem cancelled_move (h : Tokens s) (hknown : Known s) (hm : Move s a t) {c : Fin m} {u : TaskId}
    (hu : u ∈ (t.clients c).cancelled) : (t.graph.task u).cancelled = true := by
  rcases hm.cancelled hu with hold | ⟨_, hflag⟩
  · exact (hm.flags hknown u).cancelled_mono (h.cancelled c u hold)
  · exact hflag

theorem untaken_move (h : Tokens s) (hknown : Known s) (hmark : MarkFresh s a)
    (hcancel : CancelUntouched s a) (hm : Move s a t) {u : TaskId}
    (hu : (t.graph.task u).cancelled = true) : (t.graph.task u).enqueued = false := by
  cases hm.flags hknown u with
  | same hc he => exact he.trans (h.untaken u (hc.symm.trans hu))
  | clear clearer hc he => exact he
  | mark target free hc =>
    have hfresh := (hmark u target free).2
    rw [← hc, hu] at hfresh
    exact absurd hfresh (by simp)
  | cancel target fresh hc he => exact he.trans (hcancel u target fresh).free

theorem move (h : Tokens s) (hknown : Known s) (hmark : MarkFresh s a)
    (hcancel : CancelUntouched s a) (hm : Move s a t) : Tokens t where
  copies := h.copies_move hknown hm
  cancelled _ _ := h.cancelled_move hknown hm
  untaken _ := h.untaken_move hknown hmark hcancel hm

end Tokens
end Executor
end NexusTask
