import NexusTask.Graph.Lists
import NexusTask.Lib.Kahn

/-!
# `dependencies_count_`

The counter is kept apart from the list of dependencies: `add_dependency` adds to both,
`notify_task_completed` takes from the counter alone, and `remove_task` takes from both, for
dependencies that were notified as well. `Ledger` remembers which tasks have been notified and how
many entries each task has lost after their task was notified; the counter is short of the open
dependencies by just these.
-/

set_option autoImplicit false

namespace NexusTask
namespace DependencyGraph

open Transition

/-- The graph, the tasks in it that were notified as completed, and how often `remove_task` erased
an entry of each task's `dependencies_` whose task had been notified. The last two are history. -/
structure Ledger where
  graph : DependencyGraph
  notified : List TaskId
  lost : TaskId → Nat

/-- The calls the history can follow: a dependency is not added onto a task already notified, and no
task is notified twice. -/
def inOrder (s : Ledger) : Op → Prop
  | .addDependency _ d | .notifyTaskCompleted d => d ∉ s.notified
  | _ => True

instance (s : Ledger) (op : Op) : Decidable (inOrder s op) :=
  match op with
  | .addDependency _ d => inferInstanceAs (Decidable (d ∉ s.notified))
  | .notifyTaskCompleted d => inferInstanceAs (Decidable (d ∉ s.notified))
  | .addTask .. => isTrue trivial
  | .removeTask _ => isTrue trivial
  | .clear => isTrue trivial

def ledgerStep (s : Ledger) (op : Op) : Option Ledger :=
  (step s.graph op).map fun g =>
    match op with
    | .addTask t _ _ => { s with graph := g, lost := Function.update s.lost t 0 }
    | .addDependency _ _ => { s with graph := g }
    | .notifyTaskCompleted d =>
        { s with graph := g
                 notified := if d ∈ s.graph.ids then s.notified ++ [d] else s.notified }
    | .removeTask u =>
        { graph := g
          notified := s.notified.filter (· ≠ u)
          lost := fun t => s.lost t +
            if u ∈ s.graph.ids ∧ u ∈ s.notified then (s.graph.task t).dependencies.count u else 0 }
    | .clear => { s with graph := g, notified := [] }

def Ledger.start (heap : TaskId → Task) : Ledger := ⟨empty heap, [], fun _ => 0⟩

/-- The number of entries of `dependencies_` whose task has not been notified. -/
def Ledger.pending (s : Ledger) (t : TaskId) : Nat :=
  (s.graph.task t).dependencies.countP (· ∉ s.notified)

/-- The counters are short by the entries lost. -/
structure Counted (s : Ledger) : Prop where
  symmetric : Symmetric s.graph
  notified_mem : ∀ d ∈ s.notified, d ∈ s.graph.ids
  count : ∀ t ∈ s.graph.ids, (s.graph.task t).dependenciesCount + s.lost t = s.pending t

theorem counted_start (heap : TaskId → Task) : Counted (.start heap) where
  symmetric := symmetric_empty heap
  notified_mem _ h := absurd h List.not_mem_nil
  count _ h := absurd h List.not_mem_nil

/-- Striking `u` takes its entries away, which were open unless `u` had been notified. -/
theorem countP_notMem_strike (u : TaskId) (notified entries : List TaskId) :
    entries.countP (· ∉ notified)
      = (entries.filter (· ≠ u)).countP (· ∉ notified.filter (· ≠ u))
        + if u ∈ notified then 0 else entries.count u := by
  induction entries with
  | nil => simp
  | cons d entries ih =>
    rw [List.countP_cons, List.count_cons, ih, List.filter_cons]
    by_cases hd : d = u
    · subst hd
      by_cases hn : d ∈ notified <;> simp [hn]
      omega
    · by_cases hn : d ∈ notified <;> simp [hd, hn]
      omega

namespace Counted

variable {s : Ledger} {t d u : TaskId}

/-- A new task has no dependencies, and none of the others names it. -/
theorem addTask (h : Counted s) (ht : t ∉ s.graph.ids) (options : TaskOptions) (createdTime : Int) :
    Counted { s with graph := s.graph.addNewTask t options createdTime
                     lost := Function.update s.lost t 0 } where
  symmetric := h.symmetric.addNewTask ht options createdTime
  notified_mem d hd := mem_addTask.mpr (.inl (h.notified_mem d hd))
  count u hu := by
    by_cases hut : u = t
    · subst hut
      simp [addNewTask, Ledger.pending]
    · have hold : u ∈ s.graph.ids := (mem_addTask.mp hu).resolve_right hut
      simpa [addNewTask, Ledger.pending, hut] using h.count u hold

/-- The entry is open, and counted. -/
theorem addDependency (h : Counted s) (hd : d ∉ s.notified) :
    Counted { s with graph := s.graph.addDependency t d } where
  symmetric := h.symmetric.addDependency
  notified_mem e he := by
    show e ∈ (s.graph.addDependency t d).ids
    rw [addDependency_ids]
    exact h.notified_mem e he
  count u hu := by
    have hu' : u ∈ s.graph.ids := by
      rw [← addDependency_ids (g := s.graph) (t := t) (d := d)]
      exact hu
    have hcount := h.count u hu'
    simp only [Ledger.pending] at hcount ⊢
    unfold DependencyGraph.addDependency
    split
    next hin =>
      rw [modify_frame (·.dependencies) rfl, modify_frame (·.dependenciesCount) rfl]
      by_cases hut : u = t
      · subst hut
        rw [modify_self]
        simp only [Task.dependOn, List.countP_append, List.countP_singleton, hd]
        push_cast
        simp only [not_false_eq_true, decide_true, if_true]
        omega
      · rw [modify_of_ne hut]
        exact hcount
    next => exact hcount

/-- One is taken from the counter for every entry that closes. -/
theorem notify (h : Counted s) (hd : d ∉ s.notified) :
    Counted { s with graph := s.graph.notifyTaskCompleted d
                     notified := if d ∈ s.graph.ids then s.notified ++ [d] else s.notified } := by
  by_cases hin : d ∈ s.graph.ids
  · rw [if_pos hin]
    refine ⟨h.symmetric.notify, ?_, ?_⟩
    · intro e he
      show e ∈ (s.graph.notifyTaskCompleted d).ids
      rw [notifyTaskCompleted_ids]
      rcases List.mem_append.mp he with he | he
      · exact h.notified_mem e he
      · exact List.mem_singleton.mp he ▸ hin
    · intro u hu
      have hu' : u ∈ s.graph.ids := notifyTaskCompleted_ids ▸ hu
      have hcount := h.count u hu'
      have hcloses := Kahn.countP_notMem_append hd (s.graph.task u).dependencies
      simp only [Ledger.pending] at hcount ⊢
      rw [notifyTaskCompleted_task hin, Task.notify_dependenciesCount, Task.notify_dependencies,
        ← h.symmetric.count_eq u hu' d hin]
      omega
  · rw [if_neg hin, notifyTaskCompleted_of_notMem hin]
    exact h

/-- One is taken from the counter for every entry erased, open or closed. -/
theorem removeTask (h : Counted s) :
    Counted { graph := (s.graph.removeTask u).2
              notified := s.notified.filter (· ≠ u)
              lost := fun t => s.lost t +
                if u ∈ s.graph.ids ∧ u ∈ s.notified then (s.graph.task t).dependencies.count u
                else 0 } := by
  by_cases hin : u ∈ s.graph.ids
  · have hids := Symmetric.removeTask_ids hin
    have hmem : ∀ w, w ∈ (s.graph.removeTask u).2.ids ↔ w ∈ s.graph.ids ∧ w ≠ u := fun w => by
      rw [hids]; simp
    refine ⟨h.symmetric.removeTask, ?_, ?_⟩
    · intro e he
      obtain ⟨hnotified, hne⟩ := List.mem_filter.mp he
      exact (hmem e).mpr ⟨h.notified_mem e hnotified, by simpa using hne⟩
    · intro w hw
      obtain ⟨hw', hne⟩ := (hmem w).mp hw
      have hcount := h.count w hw'
      simp only [Ledger.pending] at hcount ⊢
      have hlists := (h.symmetric.removeTask_lists hin).2 w hw' hne
      have hstrike := countP_notMem_strike u s.notified (s.graph.task w).dependencies
      rw [h.symmetric.removeTask_count hin hw' hne, hlists.1]
      by_cases hn : u ∈ s.notified
      · rw [if_pos hn] at hstrike
        rw [if_pos ⟨hin, hn⟩]
        push_cast
        omega
      · rw [if_neg hn] at hstrike
        rw [if_neg fun hboth => hn hboth.2]
        omega
  · have hsame : (s.graph.removeTask u).2 = s.graph := by
      unfold DependencyGraph.removeTask
      rw [if_neg hin]
    have hnot : u ∉ s.notified := fun hn => hin (h.notified_mem u hn)
    rw [hsame, Symmetric.filter_ne_self hnot]
    simp only [hin, false_and, if_false, Nat.add_zero]
    exact h

end Counted

/-- Every call keeps the balance. -/
theorem counted_step : Preserved ledgerStep inOrder Counted := by
  intro s op s' h hok hstep
  simp only [ledgerStep] at hstep
  obtain ⟨g, hg, rfl⟩ := Option.map_eq_some_iff.mp hstep
  cases op with
  | addTask t options createdTime =>
    simp only [step] at hg
    split at hg
    next => exact absurd hg (by simp)
    next ht => exact Option.some.inj hg ▸ h.addTask ht options createdTime
  | addDependency t d => exact Option.some.inj hg ▸ h.addDependency hok
  | notifyTaskCompleted d => exact Option.some.inj hg ▸ h.notify hok
  | removeTask u => exact Option.some.inj hg ▸ h.removeTask
  | clear =>
    obtain rfl := Option.some.inj hg
    exact ⟨symmetric_empty _, fun _ hd => absurd hd List.not_mem_nil,
      fun _ ht => absurd ht List.not_mem_nil⟩

end DependencyGraph
end NexusTask
