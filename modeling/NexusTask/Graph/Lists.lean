import NexusTask.Graph
import NexusTask.Lib.Run

/-!
# The two lists of an edge

Every edge is recorded twice, in `dependencies_` of the dependent and in `dependents_` of the
dependency, and `remove_task` has to find it in both. `Symmetric` says that the two agree, with
multiplicities, and that neither names a task outside the graph. Under it the loops of `remove_task`
come to one thing: the removed task is struck from every list (`removeTask_lists`).

Tasks are known by their ids here. A pointer left behind to a removed task would show as the id of a
task outside the graph.
-/

set_option autoImplicit false

namespace NexusTask

open Transition

namespace Task

/-- `dependents.erase(remove(dependents, u))`. -/
def eraseDependent (u : TaskId) (k : Task) : Task :=
  { k with dependents := k.dependents.filter (· ≠ u) }

/-- `deps.erase(remove(deps, u))`, and one decrement of the counter. -/
def eraseDependency (u : TaskId) (k : Task) : Task :=
  { k with dependencies := k.dependencies.filter (· ≠ u),
           dependenciesCount := k.dependenciesCount - 1 }

variable (u : TaskId) (k : Task) (n : Nat)

@[simp] theorem iterate_eraseDependent_dependencies :
    ((eraseDependent u)^[n] k).dependencies = k.dependencies := by
  induction n with
  | zero => rfl
  | succ n ih => rw [Function.iterate_succ_apply']; exact ih

theorem iterate_eraseDependent_dependents (h : 0 < n) :
    ((eraseDependent u)^[n] k).dependents = k.dependents.filter (· ≠ u) := by
  induction n with
  | zero => exact absurd h (Nat.lt_irrefl 0)
  | succ n ih =>
    rw [Function.iterate_succ_apply']
    show ((eraseDependent u)^[n] k).dependents.filter (· ≠ u) = _
    cases n with
    | zero => rfl
    | succ n => rw [ih (Nat.succ_pos n), List.filter_filter]; simp

@[simp] theorem iterate_eraseDependency_dependents :
    ((eraseDependency u)^[n] k).dependents = k.dependents := by
  induction n with
  | zero => rfl
  | succ n ih => rw [Function.iterate_succ_apply']; exact ih

theorem iterate_eraseDependency_dependencies (h : 0 < n) :
    ((eraseDependency u)^[n] k).dependencies = k.dependencies.filter (· ≠ u) := by
  induction n with
  | zero => exact absurd h (Nat.lt_irrefl 0)
  | succ n ih =>
    rw [Function.iterate_succ_apply']
    show ((eraseDependency u)^[n] k).dependencies.filter (· ≠ u) = _
    cases n with
    | zero => rfl
    | succ n => rw [ih (Nat.succ_pos n), List.filter_filter]; simp

@[simp] theorem iterate_eraseDependent_count :
    ((eraseDependent u)^[n] k).dependenciesCount = k.dependenciesCount := by
  induction n with
  | zero => rfl
  | succ n ih => rw [Function.iterate_succ_apply']; exact ih

theorem iterate_eraseDependency_count :
    ((eraseDependency u)^[n] k).dependenciesCount = k.dependenciesCount - n := by
  induction n with
  | zero => simp
  | succ n ih =>
    rw [Function.iterate_succ_apply']
    show ((eraseDependency u)^[n] k).dependenciesCount - 1 = _
    omega

/-- The entries of the other tasks stay. -/
theorem iterate_eraseDependent_count_of_ne {w : TaskId} (h : w ≠ u) :
    ((eraseDependent u)^[n] k).dependents.count w = k.dependents.count w := by
  cases n with
  | zero => rfl
  | succ n =>
    rw [iterate_eraseDependent_dependents _ _ _ (Nat.succ_pos n),
      List.count_filter (by simpa using h)]

end Task

namespace DependencyGraph

/-- `add_task` of a `Task` just constructed. -/
def addNewTask (g : DependencyGraph) (t : TaskId) (options : TaskOptions) (createdTime : Int) :
    DependencyGraph :=
  { g with task := Function.update g.task t { id := t, options, createdTime } }.addTask t

/-- `remove_task`: whether the task was there, and the graph afterwards. The second loop reads the
task's own `dependents_` after the first one has gone over it. -/
def removeTask (g : DependencyGraph) (u : TaskId) : Bool × DependencyGraph :=
  if u ∈ g.ids then
    let g₁ := (g.task u).dependencies.foldl (fun g d => g.modify d (Task.eraseDependent u)) g
    let g₂ := (g₁.task u).dependents.foldl (fun g t => g.modify t (Task.eraseDependency u)) g₁
    (true, { g₂ with ids := g₂.ids.filter (· ≠ u) })
  else (false, g)

def clear (g : DependencyGraph) : DependencyGraph := { g with ids := [] }

/-- A graph just constructed, on whatever heap of tasks. -/
def empty (heap : TaskId → Task) : DependencyGraph := { ids := [], task := heap }

inductive Op
  | addTask (t : TaskId) (options : TaskOptions) (createdTime : Int)
  | addDependency (t d : TaskId)
  | notifyTaskCompleted (d : TaskId)
  | removeTask (u : TaskId)
  | clear
  deriving DecidableEq

/-- One call of the interface. A task is added under an id that is not in the graph. -/
def step (g : DependencyGraph) : Op → Option DependencyGraph
  | .addTask t options createdTime =>
      if t ∈ g.ids then none else some (g.addNewTask t options createdTime)
  | .addDependency t d => some (g.addDependency t d)
  | .notifyTaskCompleted d => some (g.notifyTaskCompleted d)
  | .removeTask u => some (g.removeTask u).2
  | .clear => some g.clear

/-- The two lists of every edge agree, and no list names a task outside the graph. -/
structure Symmetric (g : DependencyGraph) : Prop where
  dependency_mem : ∀ u ∈ g.ids, ∀ v ∈ (g.task u).dependencies, v ∈ g.ids
  dependent_mem : ∀ u ∈ g.ids, ∀ v ∈ (g.task u).dependents, v ∈ g.ids
  count_eq : ∀ u ∈ g.ids, ∀ v ∈ g.ids,
    (g.task u).dependencies.count v = (g.task v).dependents.count u

theorem symmetric_empty (heap : TaskId → Task) : Symmetric (empty heap) :=
  ⟨fun _ h => absurd h List.not_mem_nil, fun _ h => absurd h List.not_mem_nil,
    fun _ h => absurd h List.not_mem_nil⟩

namespace Symmetric

variable {g g' : DependencyGraph} {t d u v : TaskId}

/-- A call that touches neither list. -/
theorem frame (h : Symmetric g) (hids : g'.ids = g.ids)
    (hdeps : ∀ u, (g'.task u).dependencies = (g.task u).dependencies)
    (hdependents : ∀ u, (g'.task u).dependents = (g.task u).dependents) : Symmetric g' where
  dependency_mem u hu v hv := by
    rw [hids] at hu ⊢
    rw [hdeps] at hv
    exact h.dependency_mem u hu v hv
  dependent_mem u hu v hv := by
    rw [hids] at hu ⊢
    rw [hdependents] at hv
    exact h.dependent_mem u hu v hv
  count_eq u hu v hv := by
    rw [hids] at hu hv
    rw [hdeps, hdependents]
    exact h.count_eq u hu v hv

theorem notify (h : Symmetric g) : Symmetric (g.notifyTaskCompleted d) :=
  h.frame notifyTaskCompleted_ids
    (fun _ => notifyTaskCompleted_frame (·.dependencies) fun _ _ _ => rfl)
    (fun _ => notifyTaskCompleted_frame (·.dependents) fun _ _ _ => rfl)

/-- No list of the graph names a task that is not in it, so a new task starts without edges. -/
theorem addNewTask (h : Symmetric g) (ht : t ∉ g.ids) (options : TaskOptions) (createdTime : Int) :
    Symmetric (g.addNewTask t options createdTime) := by
  have hids : ∀ u, u ∈ (g.addNewTask t options createdTime).ids ↔ u ∈ g.ids ∨ u = t := fun u =>
    mem_addTask
  have hnew : (g.addNewTask t options createdTime).task t = { id := t, options, createdTime } := by
    simp [DependencyGraph.addNewTask]
  have hold : ∀ u, u ≠ t → (g.addNewTask t options createdTime).task u = g.task u := fun u hu =>
    Function.update_of_ne hu ..
  have hne : ∀ u, u ∈ g.ids → u ≠ t := fun u hu he => ht (he ▸ hu)
  refine ⟨fun u hu v hv => ?_, fun u hu v hv => ?_, fun u hu v hv => ?_⟩
  · rcases (hids u).mp hu with hu | rfl
    · rw [hold u (hne u hu)] at hv
      exact (hids v).mpr (.inl (h.dependency_mem u hu v hv))
    · rw [hnew] at hv
      exact absurd hv List.not_mem_nil
  · rcases (hids u).mp hu with hu | rfl
    · rw [hold u (hne u hu)] at hv
      exact (hids v).mpr (.inl (h.dependent_mem u hu v hv))
    · rw [hnew] at hv
      exact absurd hv List.not_mem_nil
  · rcases (hids u).mp hu with hu' | hu' <;> rcases (hids v).mp hv with hv' | hv'
    · rw [hold u (hne u hu'), hold v (hne v hv')]
      exact h.count_eq u hu' v hv'
    · rw [hv', hold u (hne u hu'), hnew]
      exact List.count_eq_zero.mpr fun hmem => ht (h.dependency_mem u hu' _ hmem)
    · rw [hu', hold v (hne v hv'), hnew]
      exact (List.count_eq_zero.mpr fun hmem => ht (h.dependent_mem v hv' _ hmem)).symm
    · rw [hu', hv', hnew]

/-- The edge is appended to both lists; `t = d` appends to both lists of one task. -/
theorem addDependency (h : Symmetric g) : Symmetric (g.addDependency t d) := by
  by_cases hin : t ∈ g.ids ∧ d ∈ g.ids
  · obtain ⟨ht, hd⟩ := hin
    have hdeps : ∀ u, ((g.addDependency t d).task u).dependencies
        = (g.task u).dependencies ++ if u = t then [d] else [] := by
      intro u
      unfold DependencyGraph.addDependency
      rw [if_pos ⟨ht, hd⟩, modify_frame (·.dependencies) rfl]
      by_cases hu : u = t
      · subst hu; simp [Task.dependOn]
      · rw [modify_of_ne hu]; simp [hu]
    have hdependents : ∀ u, ((g.addDependency t d).task u).dependents
        = (g.task u).dependents ++ if u = d then [t] else [] := by
      intro u
      unfold DependencyGraph.addDependency
      rw [if_pos ⟨ht, hd⟩]
      have hdep : ((g.modify t (·.dependOn d)).task u).dependents = (g.task u).dependents :=
        modify_frame (·.dependents) rfl
      by_cases hu : u = d
      · subst hu; simp [Task.addDependent, hdep]
      · rw [modify_of_ne hu, hdep]; simp [hu]
    refine ⟨fun u hu v hv => ?_, fun u hu v hv => ?_, fun u hu v hv => ?_⟩
    · rw [addDependency_ids] at hu ⊢
      rw [hdeps, List.mem_append] at hv
      rcases hv with hv | hv
      · exact h.dependency_mem u hu v hv
      · split at hv
        · exact List.mem_singleton.mp hv ▸ hd
        · exact absurd hv List.not_mem_nil
    · rw [addDependency_ids] at hu ⊢
      rw [hdependents, List.mem_append] at hv
      rcases hv with hv | hv
      · exact h.dependent_mem u hu v hv
      · split at hv
        · exact List.mem_singleton.mp hv ▸ ht
        · exact absurd hv List.not_mem_nil
    · rw [addDependency_ids] at hu hv
      rw [hdeps, hdependents, List.count_append, List.count_append, h.count_eq u hu v hv]
      congr 1
      by_cases hut : u = t <;> by_cases hvd : v = d
      · simp [hut, hvd]
      · simp [hut, hvd, Ne.symm hvd]
      · simp [hut, hvd, Ne.symm hut]
      · simp [hut, hvd]
  · unfold DependencyGraph.addDependency
    rw [if_neg hin]
    exact h

theorem filter_ne_self {l : List TaskId} (h : u ∉ l) : l.filter (· ≠ u) = l := by
  refine List.filter_eq_self.mpr fun x hx => decide_eq_true ?_
  rintro rfl
  exact h hx

/-- What the two loops of `remove_task` do to one of the other tasks: each of its edges is gone
over once for every time it was added. -/
theorem removeTask_task (h : Symmetric g) (hu : u ∈ g.ids) (hv : v ∈ g.ids) (hne : v ≠ u) :
    (g.removeTask u).2.task v = (Task.eraseDependency u)^[(g.task v).dependencies.count u]
      ((Task.eraseDependent u)^[(g.task u).dependencies.count v] (g.task v)) := by
  unfold DependencyGraph.removeTask
  rw [if_pos hu]
  dsimp only
  obtain ⟨_, htask₁⟩ := foldl_modify (Task.eraseDependent u) (g.task u).dependencies g
  generalize (g.task u).dependencies.foldl (fun g d => g.modify d (Task.eraseDependent u)) g
    = g₁ at htask₁
  obtain ⟨_, htask₂⟩ := foldl_modify (Task.eraseDependency u) (g₁.task u).dependents g₁
  rw [htask₂ v, htask₁ v, htask₁ u, Task.iterate_eraseDependent_count_of_ne _ _ _ hne,
    h.count_eq v hv u hu]

theorem removeTask_ids (hu : u ∈ g.ids) : (g.removeTask u).2.ids = g.ids.filter (· ≠ u) := by
  unfold DependencyGraph.removeTask
  rw [if_pos hu]
  dsimp only
  rw [(foldl_modify _ _ _).1, (foldl_modify _ _ _).1]

/-- What `remove_task` comes to: the task leaves the graph and every list in it. A list the loops do
not come to does not name it. -/
theorem removeTask_lists (h : Symmetric g) (hu : u ∈ g.ids) :
    (g.removeTask u).2.ids = g.ids.filter (· ≠ u) ∧
    ∀ w ∈ g.ids, w ≠ u →
      ((g.removeTask u).2.task w).dependencies = (g.task w).dependencies.filter (· ≠ u) ∧
      ((g.removeTask u).2.task w).dependents = (g.task w).dependents.filter (· ≠ u) := by
  refine ⟨removeTask_ids hu, fun w hw hne => ?_⟩
  rw [h.removeTask_task hu hw hne]
  constructor
  · by_cases hcount : (g.task w).dependencies.count u = 0
    · rw [hcount, filter_ne_self (List.count_eq_zero.mp hcount)]
      exact Task.iterate_eraseDependent_dependencies _ _ _
    · rw [Task.iterate_eraseDependency_dependencies _ _ _ (Nat.pos_of_ne_zero hcount),
        Task.iterate_eraseDependent_dependencies]
  · rw [Task.iterate_eraseDependency_dependents]
    by_cases hcount : (g.task u).dependencies.count w = 0
    · have hnot : u ∉ (g.task w).dependents := by
        rw [h.count_eq u hu w hw] at hcount
        exact List.count_eq_zero.mp hcount
      rw [hcount, filter_ne_self hnot]
      rfl
    · exact Task.iterate_eraseDependent_dependents _ _ _ (Nat.pos_of_ne_zero hcount)

/-- One is taken from the counter for every entry erased. -/
theorem removeTask_count (h : Symmetric g) (hu : u ∈ g.ids) (hv : v ∈ g.ids) (hne : v ≠ u) :
    ((g.removeTask u).2.task v).dependenciesCount
      = (g.task v).dependenciesCount - (g.task v).dependencies.count u := by
  rw [h.removeTask_task hu hv hne, Task.iterate_eraseDependency_count,
    Task.iterate_eraseDependent_count]

theorem removeTask (h : Symmetric g) : Symmetric (g.removeTask u).2 := by
  by_cases hu : u ∈ g.ids
  · obtain ⟨hids, hlists⟩ := h.removeTask_lists hu
    have hmem : ∀ w, w ∈ (g.removeTask u).2.ids ↔ w ∈ g.ids ∧ w ≠ u := fun w => by
      rw [hids]; simp
    refine ⟨fun w hw v hv => ?_, fun w hw v hv => ?_, fun w hw v hv => ?_⟩
    · obtain ⟨hw, hne⟩ := (hmem w).mp hw
      rw [(hlists w hw hne).1, List.mem_filter] at hv
      exact (hmem v).mpr ⟨h.dependency_mem w hw v hv.1, by simpa using hv.2⟩
    · obtain ⟨hw, hne⟩ := (hmem w).mp hw
      rw [(hlists w hw hne).2, List.mem_filter] at hv
      exact (hmem v).mpr ⟨h.dependent_mem w hw v hv.1, by simpa using hv.2⟩
    · obtain ⟨hw, hwu⟩ := (hmem w).mp hw
      obtain ⟨hv, hvu⟩ := (hmem v).mp hv
      rw [(hlists w hw hwu).1, (hlists v hv hvu).2, List.count_filter (by simpa using hvu),
        List.count_filter (by simpa using hwu)]
      exact h.count_eq w hw v hv
  · unfold DependencyGraph.removeTask
    rw [if_neg hu]
    exact h

end Symmetric

theorem symmetric_step : Preserved step free Symmetric := by
  intro g op g' h _ hstep
  cases op with
  | addTask t options createdTime =>
    simp only [step] at hstep
    split at hstep
    next => exact absurd hstep (by simp)
    next ht => exact Option.some.inj hstep ▸ h.addNewTask ht options createdTime
  | addDependency t d => exact Option.some.inj hstep ▸ h.addDependency
  | notifyTaskCompleted d => exact Option.some.inj hstep ▸ h.notify
  | removeTask u => exact Option.some.inj hstep ▸ h.removeTask
  | clear => exact Option.some.inj hstep ▸ symmetric_empty g.task

/-- **The two lists of every edge agree after every sequence of calls**, with repeated edges,
self-dependencies and cycles. -/
theorem lists_symmetric {heap : TaskId → Task} {ops : List Op} {g : DependencyGraph}
    (run : Run step free (empty heap) ops g) : Symmetric g :=
  run.invariant symmetric_step (symmetric_empty heap)

/-- A task with a self-dependency and a repeated edge is removed. -/
theorem lists_symmetric_removed :
    ∃ g, Run step free (empty fun t => { id := t }) [.addTask 1 {} 0, .addTask 2 {} 0,
        .addDependency 1 1, .addDependency 2 1, .addDependency 2 1, .addDependency 1 2,
        .removeTask 1] g ∧ g.ids = [2] ∧ Symmetric g := by
  have hrun : Run step free (empty fun t => { id := t }) [.addTask 1 {} 0, .addTask 2 {} 0,
      .addDependency 1 1, .addDependency 2 1, .addDependency 2 1, .addDependency 1 2,
      .removeTask 1] _ := Run.of_isSome (by decide)
  exact ⟨_, hrun, by decide, lists_symmetric hrun⟩

end DependencyGraph
end NexusTask
