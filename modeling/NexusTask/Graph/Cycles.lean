import NexusTask.Graph.Topological

/-!
# `has_cycles`

The answer comes from two critical sections: the topological order is computed in one, and its
length compared with the number of tasks in the next. With nothing in between the two numbers differ
exactly when there is a cycle. With calls of other threads in between they are numbers of two
different graphs, and `has_cycles_answer_iff` says when the answer still belongs to one of the
graphs there were during the call.
-/

set_option autoImplicit false

namespace NexusTask
namespace DependencyGraph

open Transition Relation

variable {g g' : DependencyGraph} {tasksOrder indegreeOrder : List TaskId}

/-- `has_cycles` with nothing between its critical sections. -/
def hasCycles (g : DependencyGraph) (tasksOrder indegreeOrder : List TaskId) : Option Bool :=
  (g.topologicalOrder tasksOrder indegreeOrder).map fun s => decide (s.order.length ≠ g.ids.length)

/-- Some task is reachable from itself through one or more dependencies. -/
def Cyclic (g : DependencyGraph) : Prop := ∃ t, TransGen g.DependsOn t t

/-- The tasks that are neither on a cycle nor behind one. -/
noncomputable def unblocked (g : DependencyGraph) : Nat :=
  {t | t ∈ g.ids ∧ ¬ g.Blocked t}.ncard

/-- What the first critical section returns: as many ids as there are unblocked tasks, and so fewer
than there are tasks if and only if there is a cycle. -/
theorem Symmetric.order_length (h : Symmetric g) (hnodup : g.ids.Nodup)
    (htasks : tasksOrder.Perm g.ids) (hindegree : indegreeOrder.Perm g.ids) :
    ∃ s, g.topologicalOrder tasksOrder indegreeOrder = some s ∧
      s.order.length = g.unblocked ∧ (s.order.length ≠ g.ids.length ↔ g.Cyclic) := by
  obtain ⟨s, hs, hinv, hready⟩ := h.topologicalOrder hnodup htasks hindegree
  have hg := h.multigraph hnodup htasks
  exact ⟨s, hs, hinv.length_order hg hready, hinv.length_ne_iff hg hready⟩

theorem Symmetric.hasCycles (h : Symmetric g) (hnodup : g.ids.Nodup)
    (htasks : tasksOrder.Perm g.ids) (hindegree : indegreeOrder.Perm g.ids) :
    ∃ b, g.hasCycles tasksOrder indegreeOrder = some b ∧ (b = true ↔ g.Cyclic) := by
  obtain ⟨s, hs, _, hlength⟩ := h.order_length hnodup htasks hindegree
  refine ⟨_, congrArg _ hs, ?_⟩
  rw [decide_eq_true_iff]
  exact hlength

/-- **`has_cycles` is exact** on every graph the interface can build, and another such graph with
the same dependencies gets the same answer, however often each was added and in whatever orders
tasks, edges and the maps' entries come. -/
theorem has_cycles_exact {heap : TaskId → Task} {ops : List Op}
    (run : Run step free (empty heap) ops g)
    (htasks : tasksOrder.Perm g.ids) (hindegree : indegreeOrder.Perm g.ids) :
    ∃ b, g.hasCycles tasksOrder indegreeOrder = some b ∧
      (b = true ↔ ∃ t ∈ g.ids, TransGen g.DependsOn t t) ∧
      ∀ (heap' : TaskId → Task) (ops' : List Op) (g' : DependencyGraph),
        Run step free (empty heap') ops' g' →
        (∀ t d, g'.DependsOn t d ↔ g.DependsOn t d) →
        ∀ tasksOrder' indegreeOrder' : List TaskId,
          tasksOrder'.Perm g'.ids → indegreeOrder'.Perm g'.ids →
          g'.hasCycles tasksOrder' indegreeOrder' = some b := by
  obtain ⟨hsym, hnodup⟩ := run.invariant nodup_step ⟨symmetric_empty heap, List.nodup_nil⟩
  obtain ⟨b, hb, hcyclic⟩ := hsym.hasCycles hnodup htasks hindegree
  refine ⟨b, hb, ?_, ?_⟩
  · rw [hcyclic]
    constructor
    · rintro ⟨t, ht⟩
      obtain ⟨d, hstep, _⟩ := TransGen.head'_iff.mp ht
      exact ⟨t, hstep.1, ht⟩
    · rintro ⟨t, _, ht⟩
      exact ⟨t, ht⟩
  · intro heap' ops' g' run' hsame tasksOrder' indegreeOrder' htasks' hindegree'
    obtain ⟨hsym', hnodup'⟩ := run'.invariant nodup_step ⟨symmetric_empty heap', List.nodup_nil⟩
    obtain ⟨b', hb', hcyclic'⟩ := hsym'.hasCycles hnodup' htasks' hindegree'
    have hrel : g'.DependsOn = g.DependsOn := by
      funext t d
      exact propext (hsame t d)
    have heq : b' = true ↔ b = true := by
      rw [hcyclic', hcyclic, Cyclic, Cyclic, hrel]
    rw [hb', Bool.eq_iff_iff.mpr heq]

/-- Tasks 1 and 2 wait for each other; the second graph has the same edges, one of them twice. -/
theorem has_cycles_exact_loop :
    ∃ g, Run step free (empty fun t => { id := t }) [.addTask 1 {} 0, .addTask 2 {} 0,
        .addDependency 1 2, .addDependency 2 1] g ∧
      ∃ b, g.hasCycles [2, 1] [1, 2] = some b ∧
        (b = true ↔ ∃ t ∈ g.ids, TransGen g.DependsOn t t) := by
  have hrun : Run step free (empty fun t => { id := t }) [.addTask 1 {} 0, .addTask 2 {} 0,
      .addDependency 1 2, .addDependency 2 1] _ := Run.of_isSome (by decide)
  obtain ⟨b, hb, hcyclic, _⟩ := has_cycles_exact hrun
    (show [2, 1].Perm _ by decide) (show [1, 2].Perm _ by decide)
  exact ⟨_, hrun, b, hb, hcyclic⟩

/-! ## With other threads in between -/

/-- Where a call of `has_cycles` is. -/
inductive HasCycles
  | called
  | sorted (order : List TaskId)
  | returned (answer : Bool)
  deriving DecidableEq

/-- One call of `has_cycles`, and the graph it shares with the other threads. The last three fields
are history: the graphs there were from the call to its return, and the one each of the two critical
sections found. -/
structure Checking where
  graph : DependencyGraph
  phase : HasCycles
  during : List DependencyGraph
  sortedIn : DependencyGraph
  comparedIn : DependencyGraph

inductive CheckStep
  | call (op : Op)
  | sort (tasksOrder indegreeOrder : List TaskId)
  | compare

def HasCycles.hasReturned : HasCycles → Bool
  | .returned _ => true
  | _ => false

/-- One critical section, of another thread's call or of `has_cycles`. -/
def checkStep (s : Checking) : CheckStep → Option Checking
  | .call op => (step s.graph op).map fun g =>
      { s with graph := g
               during := if s.phase.hasReturned then s.during else s.during ++ [g] }
  | .sort tasksOrder indegreeOrder =>
      match s.phase with
      | .called =>
          if tasksOrder.Perm s.graph.ids ∧ indegreeOrder.Perm s.graph.ids then
            (s.graph.topologicalOrder tasksOrder indegreeOrder).map fun sorting =>
              { s with phase := .sorted sorting.order, sortedIn := s.graph }
          else none
      | _ => none
  | .compare =>
      match s.phase with
      | .sorted order =>
          some { s with phase := .returned (decide (order.length ≠ s.graph.ids.length))
                        comparedIn := s.graph }
      | _ => none

/-- `has_cycles` is called on `g`. -/
def Checking.begin (g : DependencyGraph) : Checking :=
  { graph := g, phase := .called, during := [g], sortedIn := g, comparedIn := g }

/-- What the call knows, and of which of the graphs it knows it. -/
structure Checked (s : Checking) : Prop where
  symmetric : Symmetric s.graph
  nodup : s.graph.ids.Nodup
  current : s.phase.hasReturned = false → s.graph ∈ s.during
  sorted : ∀ order, s.phase = .sorted order → s.sortedIn ∈ s.during ∧
    order.length = s.sortedIn.unblocked ∧
    (s.sortedIn.unblocked ≠ s.sortedIn.ids.length ↔ s.sortedIn.Cyclic)
  returned : ∀ answer, s.phase = .returned answer → s.sortedIn ∈ s.during ∧
    s.comparedIn ∈ s.during ∧
    (answer = true ↔ s.sortedIn.unblocked ≠ s.comparedIn.ids.length) ∧
    (s.sortedIn.unblocked ≠ s.sortedIn.ids.length ↔ s.sortedIn.Cyclic)

theorem checked_begin (hsym : Symmetric g) (hnodup : g.ids.Nodup) : Checked (.begin g) where
  symmetric := hsym
  nodup := hnodup
  current _ := List.mem_singleton_self g
  sorted _ h := nomatch h
  returned _ h := nomatch h

theorem checked_step : Preserved checkStep free Checked := by
  intro s a s' h _ hstep
  cases a with
  | call op =>
    simp only [checkStep] at hstep
    obtain ⟨g, hg, rfl⟩ := Option.map_eq_some_iff.mp hstep
    obtain ⟨hsym, hnodup⟩ := nodup_step s.graph op g ⟨h.symmetric, h.nodup⟩ trivial hg
    -- The history only grows, so what was in it stays.
    have hgrows : ∀ k ∈ s.during,
        k ∈ if s.phase.hasReturned then s.during else s.during ++ [g] := by
      intro k hk
      split
      · exact hk
      · exact List.mem_append_left _ hk
    refine ⟨hsym, hnodup, ?_, ?_, ?_⟩
    · intro hret
      show g ∈ if s.phase.hasReturned then s.during else s.during ++ [g]
      rw [if_neg (by simpa using hret)]
      exact List.mem_append_right _ (List.mem_singleton_self g)
    · intro order horder
      obtain ⟨hmem, hlength⟩ := h.sorted order horder
      exact ⟨hgrows _ hmem, hlength⟩
    · intro answer hanswer
      obtain ⟨hsorted, hcompared, hrest⟩ := h.returned answer hanswer
      exact ⟨hgrows _ hsorted, hgrows _ hcompared, hrest⟩
  | sort tasksOrder indegreeOrder =>
    simp only [checkStep] at hstep
    split at hstep
    next hphase =>
      split at hstep
      next hperm =>
        obtain ⟨sorting, hsorting, rfl⟩ := Option.map_eq_some_iff.mp hstep
        obtain ⟨sorting', hsome, hunblocked, hcyclic⟩ :=
          h.symmetric.order_length h.nodup hperm.1 hperm.2
        obtain rfl : sorting' = sorting := Option.some.inj (hsome.symm.trans hsorting)
        have hcurrent : s.graph ∈ s.during := h.current (by rw [hphase]; rfl)
        refine ⟨h.symmetric, h.nodup, fun _ => hcurrent, ?_, fun _ hret => nomatch hret⟩
        intro order horder
        obtain rfl := HasCycles.sorted.inj horder
        exact ⟨hcurrent, hunblocked, hunblocked ▸ hcyclic⟩
      next => exact nomatch hstep
    next => exact nomatch hstep
  | compare =>
    simp only [checkStep] at hstep
    split at hstep
    next order hphase =>
      obtain rfl := Option.some.inj hstep
      obtain ⟨hsorted, hunblocked, hcyclic⟩ := h.sorted order hphase
      refine ⟨h.symmetric, h.nodup, (nomatch ·), (fun _ h => nomatch h), ?_⟩
      intro answer hanswer
      obtain rfl := HasCycles.returned.inj hanswer
      refine ⟨hsorted, h.current (by rw [hphase]; rfl), ?_, hcyclic⟩
      rw [decide_eq_true_iff, hunblocked]
    next => exact nomatch hstep

/-- **When the answer of `has_cycles` is right for some graph of its call**, in every interleaving
with calls of other threads: if the two critical sections find as many tasks as each other; or if
there were graphs with and without a cycle, so that either answer will do; or if there was a cycle
all along, and the comparison did not find just as many tasks as the sort had found unblocked. -/
theorem has_cycles_answer_iff {heap : TaskId → Task} {ops : List Op}
    (reached : Run step free (empty heap) ops g) {acts : List CheckStep} {s : Checking}
    (run : Run checkStep free (.begin g) acts s) {answer : Bool}
    (hret : s.phase = .returned answer) :
    (∃ k ∈ s.during, (answer = true ↔ k.Cyclic)) ↔
      s.comparedIn.ids.length = s.sortedIn.ids.length ∨
      ((∃ k ∈ s.during, k.Cyclic) ∧ ∃ k ∈ s.during, ¬ k.Cyclic) ∨
      ((∀ k ∈ s.during, k.Cyclic) ∧ s.comparedIn.ids.length ≠ s.sortedIn.unblocked) := by
  obtain ⟨hsym, hnodup⟩ := reached.invariant nodup_step ⟨symmetric_empty heap, List.nodup_nil⟩
  have hchecked : Checked s := run.invariant checked_step (checked_begin hsym hnodup)
  obtain ⟨hsorted, _, hanswer, hcyclic⟩ := hchecked.returned answer hret
  rw [hanswer]
  constructor
  · rintro ⟨k, hk, hright⟩
    by_cases hmixed : (∃ k ∈ s.during, k.Cyclic) ∧ ∃ k ∈ s.during, ¬ k.Cyclic
    · exact .inr (.inl hmixed)
    · by_cases hcycle : k.Cyclic
      · -- A cycle all along.
        refine .inr (.inr ⟨?_, (hright.mpr hcycle).symm⟩)
        intro k' hk'
        by_contra hno
        exact hmixed ⟨⟨k, hk, hcycle⟩, k', hk', hno⟩
      · -- Never a cycle: every task was sorted, and the comparison found as many.
        have hnone : ¬ s.sortedIn.Cyclic := fun hyes => hmixed ⟨⟨_, hsorted, hyes⟩, k, hk, hcycle⟩
        have hall : s.sortedIn.unblocked = s.sortedIn.ids.length := by
          by_contra hne
          exact hnone (hcyclic.mp hne)
        have hsame : s.sortedIn.unblocked = s.comparedIn.ids.length := by
          by_contra hne
          exact hcycle (hright.mp hne)
        exact .inl (hsame.symm.trans hall)
  · rintro (hsame | ⟨⟨k₁, hk₁, hyes⟩, k₀, hk₀, hno⟩ | ⟨hall, hne⟩)
    · exact ⟨s.sortedIn, hsorted, hsame ▸ hcyclic⟩
    · by_cases hb : s.sortedIn.unblocked ≠ s.comparedIn.ids.length
      · exact ⟨k₁, hk₁, iff_of_true hb hyes⟩
      · exact ⟨k₀, hk₀, iff_of_false hb hno⟩
    · exact ⟨s.sortedIn, hsorted, iff_of_true (Ne.symm hne) (hall _ hsorted)⟩

/-- A dependency is added in between, and the tasks stay as many. -/
theorem has_cycles_answer_iff_dependency :
    ∃ g s, Run step free (empty fun t => { id := t }) [.addTask 1 {} 0, .addTask 2 {} 0] g ∧
      Run checkStep free (.begin g) [.sort [1, 2] [2, 1], .call (.addDependency 1 2), .compare] s ∧
      ∃ k ∈ s.during, (false = true ↔ k.Cyclic) := by
  have hreached : Run step free (empty fun t => { id := t }) [.addTask 1 {} 0, .addTask 2 {} 0] _ :=
    Run.of_isSome (by decide)
  refine ⟨_, _, hreached, Run.of_isSome (by decide), ?_⟩
  exact (has_cycles_answer_iff hreached (Run.of_isSome (by decide)) rfl).mpr (.inl rfl)

theorem not_cyclic (h : ∀ t ∈ g.ids, (g.task t).dependencies = []) : ¬ g.Cyclic := by
  rintro ⟨t, ht⟩
  obtain ⟨d, ⟨hmem, hd⟩, _⟩ := TransGen.head'_iff.mp ht
  have hnone : d ∉ (g.task t).dependencies := by
    rw [h t hmem]
    exact List.not_mem_nil
  exact hnone hd

theorem cyclic_of_self {t : TaskId} (ht : t ∈ g.ids) (hd : t ∈ (g.task t).dependencies) :
    g.Cyclic := ⟨t, .single ⟨ht, hd⟩⟩

/-- An empty graph, to which a task is added in between, is reported to have a cycle; and that task
2 depends on itself goes unnoticed when task 1 is removed in between. -/
theorem has_cycles_wrong :
    (∃ s, Run checkStep free (.begin (empty fun t => { id := t }))
        [.sort [] [], .call (.addTask 1 {} 0), .compare] s ∧
      s.phase = .returned true ∧ ∀ k ∈ s.during, ¬ k.Cyclic) ∧
    ∃ g s, Run step free (empty fun t => { id := t })
        [.addTask 1 {} 0, .addTask 2 {} 0, .addDependency 2 2] g ∧
      Run checkStep free (.begin g)
        [.sort [1, 2] [1, 2], .call (.removeTask 1), .compare] s ∧
      s.phase = .returned false ∧ ∀ k ∈ s.during, k.Cyclic := by
  constructor
  · have hrun : Run checkStep free (.begin (empty fun t => { id := t }))
        [.sort [] [], .call (.addTask 1 {} 0), .compare] _ := Run.of_isSome (by decide)
    refine ⟨_, hrun, rfl, fun k hk => not_cyclic ?_⟩
    revert k
    decide
  · have hreached : Run step free (empty fun t => { id := t })
        [.addTask 1 {} 0, .addTask 2 {} 0, .addDependency 2 2] _ := Run.of_isSome (by decide)
    refine ⟨_, _, hreached, Run.of_isSome (by decide), rfl, fun k hk => ?_⟩
    have hself : 2 ∈ k.ids ∧ 2 ∈ (k.task 2).dependencies := by
      revert k
      decide
    exact cyclic_of_self hself.1 hself.2

end DependencyGraph
end NexusTask
