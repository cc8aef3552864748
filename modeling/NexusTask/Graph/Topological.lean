import NexusTask.Graph.Lists
import NexusTask.Lib.Kahn
import NexusTask.Queue.Basic

/-!
# `topological_order`

The unordered maps are gone through twice, `tasks_` to collect the in-degrees and the adjacency
lists, and the map of in-degrees to find the tasks to begin with. Both orders are arguments here:
any two orders of the ids in the graph. The rest is Kahn's algorithm, and what it needs of the graph
is that its two lists of every edge agree.
-/

set_option autoImplicit false

namespace NexusTask
namespace DependencyGraph

open Transition

/-- The loop over `tasks_`: the in-degrees and the adjacency lists of the tasks gone through. -/
def collect (g : DependencyGraph) (visited : List TaskId) :
    (TaskId → Nat) × (TaskId → List TaskId) :=
  visited.foldl (fun (indegree, adjacency) id =>
    (Function.update indegree id (g.task id).dependencies.length,
     Function.update adjacency id (adjacency id ++ (g.task id).dependents)))
    (fun _ => 0, fun _ => [])

/-- `topological_order`, with the final state of its loop. No task comes up twice, so the loop is
given as many turns as there are tasks; `none` would say that it had not ended. -/
def topologicalOrder (g : DependencyGraph) (tasksOrder indegreeOrder : List TaskId) :
    Option (Kahn.State TaskId) :=
  let (indegree, adjacency) := g.collect tasksOrder
  let ready := indegreeOrder.filter (indegree · = 0)
  Kahn.loop sizeMax adjacency g.ids.length { ready, indegree, order := [], decremented := [] }

/-- `t` names `d` as a dependency. -/
def DependsOn (g : DependencyGraph) : TaskId → TaskId → Prop :=
  Kahn.Depends g.ids fun t => (g.task t).dependencies

/-- The task is on a dependency cycle, or depends on one that is. -/
def Blocked (g : DependencyGraph) (t : TaskId) : Prop :=
  ∃ c, Relation.ReflTransGen g.DependsOn t c ∧ Relation.TransGen g.DependsOn c c

theorem collect_eq (g : DependencyGraph) {visited : List TaskId} (h : visited.Nodup) (t : TaskId) :
    (g.collect visited).1 t = (if t ∈ visited then (g.task t).dependencies.length else 0) ∧
    (g.collect visited).2 t = (if t ∈ visited then (g.task t).dependents else []) := by
  induction visited using List.reverseRecOn with
  | nil => exact ⟨rfl, rfl⟩
  | append_singleton visited x ih =>
    obtain ⟨hvisited, _, hdisjoint⟩ := List.nodup_append.mp h
    have hx : x ∉ visited := fun hmem => hdisjoint x hmem x (List.mem_singleton_self x) rfl
    obtain ⟨hdegree, hadjacent⟩ := ih hvisited
    have hstep : g.collect (visited ++ [x]) =
        (Function.update (g.collect visited).1 x (g.task x).dependencies.length,
         Function.update (g.collect visited).2 x
           ((g.collect visited).2 x ++ (g.task x).dependents)) := by
      unfold collect
      rw [List.foldl_append]
      rfl
    rw [hstep]
    by_cases ht : t = x
    · -- Every task is gone through once, so its adjacency list was empty before.
      subst ht
      rw [if_neg hx] at hadjacent
      simp [hadjacent]
    · simp [hdegree, hadjacent, ht]

/-- The ids in the graph are the keys of a map. -/
theorem nodup_step : Preserved step free fun g => Symmetric g ∧ g.ids.Nodup := by
  intro g op g' h hok hstep
  obtain ⟨hsym, hnodup⟩ := h
  refine ⟨symmetric_step g op g' hsym hok hstep, ?_⟩
  cases op with
  | addTask t options createdTime =>
    simp only [step] at hstep
    split at hstep
    next => exact absurd hstep (by simp)
    next ht =>
      obtain rfl := Option.some.inj hstep
      have hids : (g.addNewTask t options createdTime).ids = g.ids ++ [t] := by
        simp [addNewTask, addTask, ht]
      rw [hids]
      refine List.nodup_append.mpr ⟨hnodup, List.nodup_singleton t, ?_⟩
      intro a ha b hb hab
      rw [List.mem_singleton.mp hb] at hab
      exact ht (hab ▸ ha)
  | addDependency t d => exact Option.some.inj hstep ▸ (addDependency_ids.symm ▸ hnodup)
  | notifyTaskCompleted d => exact Option.some.inj hstep ▸ (notifyTaskCompleted_ids.symm ▸ hnodup)
  | removeTask u =>
    obtain rfl := Option.some.inj hstep
    by_cases hu : u ∈ g.ids
    · rw [(hsym.removeTask_lists hu).1]
      exact hnodup.filter _
    · unfold removeTask
      rw [if_neg hu]
      exact hnodup
  | clear => exact Option.some.inj hstep ▸ List.nodup_nil

/-- The graph is a multigraph for the algorithm, which reads the adjacency lists it collected. -/
theorem Symmetric.multigraph {g : DependencyGraph} (h : Symmetric g) (hnodup : g.ids.Nodup)
    {tasksOrder : List TaskId} (hperm : tasksOrder.Perm g.ids) :
    Kahn.Multigraph g.ids (fun t => (g.task t).dependencies) (g.collect tasksOrder).2 := by
  have hadjacent : ∀ t ∈ g.ids, (g.collect tasksOrder).2 t = (g.task t).dependents := by
    intro t ht
    rw [(g.collect_eq (hperm.nodup_iff.mpr hnodup) t).2, if_pos (hperm.mem_iff.mpr ht)]
  refine ⟨hnodup, h.dependency_mem, ?_, ?_⟩
  · intro u hu v hv
    rw [hadjacent u hu] at hv
    exact h.dependent_mem u hu v hv
  · intro u hu v hv
    rw [hadjacent v hv]
    exact h.count_eq u hu v hv

/-- The loop of `topological_order` ends, with the queue empty and the loop invariant in place. -/
theorem Symmetric.topologicalOrder {g : DependencyGraph} (h : Symmetric g) (hnodup : g.ids.Nodup)
    {tasksOrder indegreeOrder : List TaskId} (htasks : tasksOrder.Perm g.ids)
    (hindegree : indegreeOrder.Perm g.ids) :
    ∃ s, g.topologicalOrder tasksOrder indegreeOrder = some s ∧
      Kahn.Inv g.ids (fun t => (g.task t).dependencies) s [] ∧ s.ready = [] := by
  have hdegree : ∀ t ∈ g.ids, (g.collect tasksOrder).1 t = (g.task t).dependencies.length := by
    intro t ht
    rw [(g.collect_eq (htasks.nodup_iff.mpr hnodup) t).1, if_pos (htasks.mem_iff.mpr ht)]
  have hstart := Kahn.Inv.start hnodup hindegree hdegree
  exact Kahn.Inv.loop (h.multigraph hnodup htasks) sizeMax g.ids.length hstart
    (Nat.le_add_left ..)

/-- **`topological_order` is correct** on every graph the interface can build and for all orders in
which the maps are gone through. It returns; the ids it lists are ids of the graph, without
repetition, every one after all its task depends on; they are those of the tasks that are neither on
a cycle nor behind one; and no in-degree was decremented at 0. -/
theorem topological_order_correct {heap : TaskId → Task} {ops : List Op} {g : DependencyGraph}
    (run : Run step free (empty heap) ops g) {tasksOrder indegreeOrder : List TaskId}
    (htasks : tasksOrder.Perm g.ids) (hindegree : indegreeOrder.Perm g.ids) :
    ∃ s, g.topologicalOrder tasksOrder indegreeOrder = some s ∧
      s.order.Nodup ∧ (∀ t ∈ s.order, t ∈ g.ids) ∧
      (∀ before t after, s.order = before ++ t :: after →
        ∀ d ∈ (g.task t).dependencies, d ∈ before) ∧
      (∀ t ∈ g.ids, t ∈ s.order ↔ ¬ g.Blocked t) ∧
      ∀ degree ∈ s.decremented, 0 < degree := by
  obtain ⟨hsym, hnodup⟩ := run.invariant nodup_step ⟨symmetric_empty heap, List.nodup_nil⟩
  obtain ⟨s, hloop, hinv, hready⟩ := hsym.topologicalOrder hnodup htasks hindegree
  have horder : s.order ++ s.ready = s.order := by rw [hready, List.append_nil]
  refine ⟨s, hloop, ?_, ?_, hinv.sorted, ?_, hinv.positive⟩
  · exact horder ▸ hinv.nodup
  · exact horder ▸ hinv.mem
  · intro t ht
    exact hinv.mem_order_iff (hsym.multigraph hnodup htasks) hready ht

/-- Tasks 1 and 2 wait for each other and 3 for them; 5 depends twice on 4. -/
theorem topological_order_partial :
    ∃ g, Run step free (empty fun t => { id := t }) [.addTask 1 {} 0, .addTask 2 {} 0,
        .addTask 3 {} 0, .addTask 4 {} 0, .addTask 5 {} 0, .addDependency 1 2, .addDependency 2 1,
        .addDependency 3 2, .addDependency 5 4, .addDependency 5 4] g ∧
      ∃ s, g.topologicalOrder [5, 4, 3, 2, 1] [2, 5, 4, 1, 3] = some s ∧
        ∀ degree ∈ s.decremented, 0 < degree := by
  have hrun : Run step free (empty fun t => { id := t }) [.addTask 1 {} 0, .addTask 2 {} 0,
      .addTask 3 {} 0, .addTask 4 {} 0, .addTask 5 {} 0, .addDependency 1 2, .addDependency 2 1,
      .addDependency 3 2, .addDependency 5 4, .addDependency 5 4] _ := Run.of_isSome (by decide)
  obtain ⟨s, hs, _, _, _, _, hpositive⟩ := topological_order_correct hrun
    (show [5, 4, 3, 2, 1].Perm _ by decide) (show [2, 5, 4, 1, 3].Perm _ by decide)
  exact ⟨_, hrun, s, hs, hpositive⟩

end DependencyGraph
end NexusTask
