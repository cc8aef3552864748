import Mathlib.Algebra.Order.BigOperators.Group.List
import Mathlib.Algebra.Order.Group.Int
import Mathlib.Algebra.Ring.Int.Defs
import NexusTask.Task

/-!
# `DependencyGraph`

`task` is the heap of `Task` objects, one for each id, and `ids` the keys of `tasks_`. Every method
is one critical section of the graph's mutex, so it is one function here.

An `Edge` is the trace an `add_dependency` leaves, with the number of times its dependent's counter
was decremented for it. `Tracks` says that the counters and the lists of dependents are what these
traces make of them; it holds whatever the callers do.
-/

set_option autoImplicit false

namespace NexusTask

structure DependencyGraph where
  ids : List TaskId
  task : TaskId → Task

namespace DependencyGraph

variable (g : DependencyGraph) (t d u : TaskId)

/-- One `Task` object is replaced by `f` of it. -/
def modify (f : Task → Task) : DependencyGraph :=
  { g with task := Function.update g.task t (f (g.task t)) }

def addTask : DependencyGraph := { g with ids := if t ∈ g.ids then g.ids else g.ids ++ [t] }

def addDependency : DependencyGraph :=
  if t ∈ g.ids ∧ d ∈ g.ids then (g.modify t (·.dependOn d)).modify d (·.addDependent t) else g

def getReadyTasks : List TaskId := g.ids.filter fun t => (g.task t).isReady

def notifyTaskCompleted : DependencyGraph :=
  if d ∈ g.ids then
    (g.task d).dependents.foldl (fun g t => g.modify t Task.notifyDependencyCompleted) g
  else g

def allCompleted : Bool := g.ids.all fun t => (g.task t).status.isTerminal

variable {g t d u}

@[simp] theorem modify_ids {f : Task → Task} : (g.modify t f).ids = g.ids := rfl

@[simp] theorem modify_self {f : Task → Task} : (g.modify t f).task t = f (g.task t) :=
  Function.update_self ..

theorem modify_of_ne {f : Task → Task} (h : u ≠ t) : (g.modify t f).task u = g.task u :=
  Function.update_of_ne h ..

/-- A field that `f` leaves alone is left alone at every task. -/
theorem modify_frame {β : Type} {f : Task → Task} (p : Task → β)
    (hf : p (f (g.task t)) = p (g.task t)) :
    p ((g.modify t f).task u) = p (g.task u) := by
  by_cases h : u = t
  · subst h
    rw [modify_self, hf]
  · rw [modify_of_ne h]

@[simp] theorem addTask_task : (g.addTask t).task = g.task := rfl

theorem mem_addTask : u ∈ (g.addTask t).ids ↔ u ∈ g.ids ∨ u = t := by
  unfold addTask
  by_cases h : t ∈ g.ids
  · simp only [h, if_true]
    exact ⟨.inl, fun hu => hu.elim id fun hu => hu ▸ h⟩
  · simp [h]

@[simp] theorem addDependency_ids : (g.addDependency t d).ids = g.ids := by
  unfold addDependency
  split <;> rfl

theorem addDependency_frame {β : Type} (p : Task → β)
    (hp : ∀ k dependencies dependents count, p { k with
      dependencies := dependencies, dependents := dependents, dependenciesCount := count } = p k) :
    p ((g.addDependency t d).task u) = p (g.task u) := by
  unfold addDependency
  split
  · rw [modify_frame p (hp _ _ _ _), modify_frame p (hp _ _ _ _)]
  · rfl

theorem mem_addDependency_dependents {e : TaskId}
    (h : u ∈ ((g.addDependency t d).task e).dependents) : u ∈ (g.task e).dependents ∨ u = t := by
  unfold addDependency at h
  split at h
  · have hdep : ((g.modify t (·.dependOn d)).task e).dependents = (g.task e).dependents :=
      modify_frame (·.dependents) rfl
    by_cases he : e = d
    · subst he
      rw [modify_self] at h
      simpa [Task.addDependent, hdep] using h
    · rw [modify_of_ne he, hdep] at h
      exact .inl h
  · exact .inl h

/-- Only the counter of the dependent changes. -/
theorem addDependency_count_of_ne (h : u ≠ t) :
    ((g.addDependency t d).task u).dependenciesCount = (g.task u).dependenciesCount := by
  unfold addDependency
  split
  · rw [modify_frame (·.dependenciesCount) rfl, modify_of_ne h]
  · rfl

theorem mem_getReadyTasks : t ∈ g.getReadyTasks ↔ t ∈ g.ids ∧ (g.task t).isReady = true :=
  List.mem_filter

theorem allCompleted_iff :
    g.allCompleted = true ↔ ∀ t ∈ g.ids, (g.task t).status.isTerminal = true := List.all_eq_true

/-! ## Notifying the dependents -/

/-- A loop that calls `f` on the tasks of a list calls it as often as each stands on it. -/
theorem foldl_modify (f : Task → Task) (l : List TaskId) (g : DependencyGraph) :
    (l.foldl (fun g t => g.modify t f) g).ids = g.ids ∧
    ∀ u, (l.foldl (fun g t => g.modify t f) g).task u = f^[l.count u] (g.task u) := by
  induction l generalizing g with
  | nil => exact ⟨rfl, fun _ => rfl⟩
  | cons t l ih =>
    obtain ⟨hids, htask⟩ := ih (g.modify t f)
    refine ⟨hids, fun u => ?_⟩
    rw [List.foldl_cons, htask u]
    by_cases h : t = u
    · subst h
      rw [modify_self, List.count_cons_self, Function.iterate_succ_apply]
    · rw [modify_of_ne (Ne.symm h), List.count_cons_of_ne h]

@[simp] theorem notifyTaskCompleted_ids : (g.notifyTaskCompleted d).ids = g.ids := by
  unfold notifyTaskCompleted
  split
  · exact (foldl_modify _ _ g).1
  · rfl

/-- A task is notified as often as it stands on the list of dependents. -/
theorem notifyTaskCompleted_task (h : d ∈ g.ids) :
    (g.notifyTaskCompleted d).task u =
      Task.notifyDependencyCompleted^[(g.task d).dependents.count u] (g.task u) := by
  unfold notifyTaskCompleted
  rw [if_pos h]
  exact (foldl_modify _ _ g).2 u

/-- A task that is no dependent is not touched. -/
theorem notifyTaskCompleted_of_notDependent (h : u ∉ (g.task d).dependents) :
    (g.notifyTaskCompleted d).task u = g.task u := by
  by_cases hd : d ∈ g.ids
  · rw [notifyTaskCompleted_task hd, List.count_eq_zero.mpr h]
    rfl
  · unfold notifyTaskCompleted
    rw [if_neg hd]

theorem notifyTaskCompleted_of_notMem (h : d ∉ g.ids) : g.notifyTaskCompleted d = g := if_neg h

/-- However often it was notified, what a notification does not touch is unchanged. -/
theorem notifyTaskCompleted_frame {β : Type} (p : Task → β)
    (hp : ∀ v count status, p { v with dependenciesCount := count, status := status } = p v) :
    p ((g.notifyTaskCompleted d).task u) = p (g.task u) := by
  by_cases h : d ∈ g.ids
  · rw [notifyTaskCompleted_task h]
    exact Task.notify_frame _ _ p hp
  · rw [notifyTaskCompleted_of_notMem h]

end DependencyGraph

/-! ## Edges -/

structure Edge where
  dependent : TaskId
  dependency : TaskId
  decs : Nat := 0
  deriving DecidableEq, Repr

namespace Edge

/-- `notify_task_completed(d)` goes by. -/
def notify (d : TaskId) (e : Edge) : Edge :=
  if e.dependency = d then { e with decs := e.decs + 1 } else e

@[simp] theorem notify_dependent (d : TaskId) (e : Edge) : (e.notify d).dependent = e.dependent := by
  unfold notify; split <;> rfl

@[simp] theorem notify_dependency (d : TaskId) (e : Edge) :
    (e.notify d).dependency = e.dependency := by
  unfold notify; split <;> rfl

/-- What an edge contributes to the counter of task `t`. -/
def share (t : TaskId) (e : Edge) : Int := if e.dependent = t then 1 - e.decs else 0

theorem share_notify (t d : TaskId) (e : Edge) :
    (e.notify d).share t
      = e.share t - if e.dependency = d ∧ e.dependent = t then 1 else 0 := by
  by_cases hd : e.dependency = d <;> by_cases ht : e.dependent = t
  · simp only [share, notify, hd, ht, and_self, if_true]
    push_cast
    omega
  · simp [share, notify, hd, ht]
  · simp [share, notify, hd]
  · simp [share, notify, hd]

theorem sum_share_notify (t d : TaskId) (edges : List Edge) :
    ((edges.map (Edge.notify d)).map (share t)).sum
      = (edges.map (share t)).sum
        - (edges.countP fun e => e.dependency = d ∧ e.dependent = t : Nat) := by
  induction edges with
  | nil => rfl
  | cons e edges ih =>
    simp only [List.map_cons, List.sum_cons, ih, share_notify, List.countP_cons]
    by_cases h : e.dependency = d ∧ e.dependent = t
    · simp only [h, and_self, if_true, decide_true]
      push_cast
      omega
    · simp only [h, if_false, decide_false, Bool.false_eq_true]
      push_cast
      omega

end Edge

/-- The counters and the lists of dependents are what the edges make of them. -/
structure Tracks (g : DependencyGraph) (edges : List Edge) : Prop where
  dependents : ∀ d t, (g.task d).dependents.count t
    = edges.countP fun e => e.dependency = d ∧ e.dependent = t
  count : ∀ t, (g.task t).dependenciesCount = (edges.map (Edge.share t)).sum

namespace Tracks

variable {g : DependencyGraph} {edges : List Edge} {t d : TaskId}

theorem modify (h : Tracks g edges) {f : Task → Task}
    (hdeps : (f (g.task t)).dependents = (g.task t).dependents)
    (hcount : (f (g.task t)).dependenciesCount = (g.task t).dependenciesCount) :
    Tracks (g.modify t f) edges where
  dependents e u := by
    rw [DependencyGraph.modify_frame (·.dependents) hdeps]
    exact h.dependents e u
  count u := by
    rw [DependencyGraph.modify_frame (·.dependenciesCount) hcount]
    exact h.count u

theorem addTask (h : Tracks g edges) : Tracks (g.addTask t) edges := ⟨h.dependents, h.count⟩

theorem addDependency (h : Tracks g edges) (ht : t ∈ g.ids) (hd : d ∈ g.ids) :
    Tracks (g.addDependency t d) (edges ++ [{ dependent := t, dependency := d }]) where
  dependents e u := by
    unfold DependencyGraph.addDependency
    rw [if_pos ⟨ht, hd⟩, List.countP_append, ← h.dependents e u]
    have hdep : ((g.modify t (·.dependOn d)).task e).dependents = (g.task e).dependents :=
      DependencyGraph.modify_frame (·.dependents) rfl
    by_cases he : e = d
    · subst he
      rw [DependencyGraph.modify_self]
      simp only [Task.addDependent, hdep, List.count_append]
      by_cases hu : t = u <;> simp [hu]
    · rw [DependencyGraph.modify_of_ne he, hdep]
      simp [Ne.symm he]
  count u := by
    unfold DependencyGraph.addDependency
    rw [if_pos ⟨ht, hd⟩, List.map_append, List.sum_append, ← h.count u,
      DependencyGraph.modify_frame (·.dependenciesCount) rfl]
    by_cases hu : u = t
    · subst hu
      simp [Task.dependOn, Edge.share]
    · rw [DependencyGraph.modify_of_ne hu]
      simp [Edge.share, Ne.symm hu]

theorem notify (h : Tracks g edges) (hd : d ∈ g.ids) :
    Tracks (g.notifyTaskCompleted d) (edges.map (Edge.notify d)) where
  dependents e u := by
    rw [DependencyGraph.notifyTaskCompleted_frame (·.dependents) fun _ _ _ => rfl,
      h.dependents e u, List.countP_map]
    congr 1
    funext x
    simp
  count u := by
    rw [DependencyGraph.notifyTaskCompleted_task hd, Task.notify_dependenciesCount,
      h.dependents d u, h.count u]
    exact (Edge.sum_share_notify u d edges).symm

/-! With at most one decrement for each edge the counter is the number of edges not yet
decremented for. -/

section
variable (hle : ∀ e ∈ edges, e.decs ≤ 1)
include hle

theorem share_nonneg {e : Edge} (he : e ∈ edges) : 0 ≤ e.share t := by
  have hdecs := hle e he
  unfold Edge.share
  split <;> omega

theorem count_nonneg (h : Tracks g edges) : 0 ≤ (g.task t).dependenciesCount := by
  rw [h.count t]
  refine List.sum_nonneg fun x hx => ?_
  obtain ⟨e, he, rfl⟩ := List.mem_map.mp hx
  exact share_nonneg hle he

/-- A counter at 0 means that every edge was decremented for. -/
theorem decs_eq_one (h : Tracks g edges) (hzero : (g.task t).dependenciesCount ≤ 0) {e : Edge}
    (he : e ∈ edges) (ht : e.dependent = t) : e.decs = 1 := by
  have hshare : e.share t ≤ (edges.map (Edge.share t)).sum := by
    refine List.single_le_sum (fun x hx => ?_) _ (List.mem_map_of_mem he)
    obtain ⟨f, hf, rfl⟩ := List.mem_map.mp hx
    exact share_nonneg hle hf
  rw [← h.count t, Edge.share, if_pos ht] at hshare
  have hdecs := hle e he
  omega

end

theorem count_eq_zero (h : Tracks g edges)
    (hone : ∀ e ∈ edges, e.dependent = t → e.decs = 1) : (g.task t).dependenciesCount = 0 := by
  rw [h.count t]
  refine List.sum_eq_zero fun x hx => ?_
  obtain ⟨e, he, rfl⟩ := List.mem_map.mp hx
  unfold Edge.share
  split
  next ht => rw [hone e he ht]; rfl
  next => rfl

end Tracks
end NexusTask
