import NexusTask.Graph.Topological

/-!
# The graph that submissions build

`submit` and `submit_with_dependencies`, one call after the other. The task is in the graph before
its dependencies are looked up, so of the ids a caller passes those of earlier tasks are recorded,
those not yet drawn are ignored, and the id of the task itself, which the caller can predict, is
recorded too. `Recorded` says just this, and the graph is acyclic as long as no call names itself.
-/

set_option autoImplicit false

namespace NexusTask
namespace DependencyGraph

/-- The arguments of a submission that reach the graph. -/
structure Submission where
  dependencies : List TaskId
  options : TaskOptions := {}
  createdTime : Int := 0

/-- What of the executor a submission reads and writes; `queued` are the tasks handed to the pool.
-/
structure Submissions where
  nextTaskId : TaskId
  graph : DependencyGraph
  queued : List TaskId

/-- An executor just constructed. -/
def Submissions.start : Submissions :=
  { nextTaskId := 1, graph := empty fun t => { id := t }, queued := [] }

/-- The graph after `add_task` and the loop of `add_dependency`. -/
def Submissions.link (s : Submissions) (c : Submission) : DependencyGraph :=
  c.dependencies.foldl (fun g d => g.addDependency s.nextTaskId d)
    (s.graph.addNewTask s.nextTaskId c.options c.createdTime)

/-- `submit_internal`. -/
def Submissions.submit (s : Submissions) (c : Submission) : Submissions :=
  let id := s.nextTaskId
  let linked := s.link c
  let (marked, task) := (linked.task id).tryMarkEnqueued
  if (linked.task id).isReady && marked then
    { nextTaskId := id + 1, graph := linked.modify id fun _ => task, queued := s.queued ++ [id] }
  else { nextTaskId := id + 1, graph := linked, queued := s.queued }

/-- A sequence of calls. -/
def Submissions.submitAll (calls : List Submission) : Submissions :=
  calls.foldl Submissions.submit Submissions.start

def Acyclic (g : DependencyGraph) : Prop := ∀ t, ¬ Relation.TransGen g.DependsOn t t

/-- Every edge goes to a smaller id. -/
def Descends (g : DependencyGraph) : Prop := ∀ t d, g.DependsOn t d → d < t

/-- No call passes the id it draws. -/
def NamesNoSelf (calls : List Submission) : Prop :=
  ∀ (k : Nat) c, calls[k]? = some c → k + 1 ∉ c.dependencies

variable {g : DependencyGraph} {t u d : TaskId}

/-- The loop over the ids passed: those in the graph are recorded, in order. -/
theorem foldl_addDependency (ds : List TaskId) (ht : t ∈ g.ids) :
    (ds.foldl (fun g d => g.addDependency t d) g).ids = g.ids ∧
    ((ds.foldl (fun g d => g.addDependency t d) g).task t).dependencies
      = (g.task t).dependencies ++ ds.filter (· ∈ g.ids) ∧
    ∀ u, u ≠ t → ((ds.foldl (fun g d => g.addDependency t d) g).task u).dependencies
      = (g.task u).dependencies := by
  induction ds generalizing g with
  | nil => simp
  | cons d ds ih =>
    have hids : (g.addDependency t d).ids = g.ids := addDependency_ids
    obtain ⟨hids', hself, hother⟩ := ih (g := g.addDependency t d) (by rw [hids]; exact ht)
    rw [hids] at hids' hself
    have hone : ∀ u, ((g.addDependency t d).task u).dependencies
        = (g.task u).dependencies ++ if u = t ∧ d ∈ g.ids then [d] else [] := by
      intro u
      unfold addDependency
      by_cases hd : d ∈ g.ids
      · rw [if_pos ⟨ht, hd⟩, modify_frame (·.dependencies) rfl]
        by_cases hu : u = t
        · subst hu
          simp [Task.dependOn, hd]
        · rw [modify_of_ne hu]
          simp [hu]
      · rw [if_neg fun h => hd h.2]
        simp [hd]
    refine ⟨hids', ?_, ?_⟩
    · rw [List.foldl_cons, hself, hone t, List.append_assoc]
      by_cases hd : d ∈ g.ids <;> simp [hd]
    · intro u hu
      rw [List.foldl_cons, hother u hu, hone u]
      simp [hu]

/-- What the calls have left in the graph. -/
structure Recorded (calls : List Submission) (s : Submissions) : Prop where
  next : s.nextTaskId = calls.length + 1
  mem : ∀ t : Nat, t ∈ s.graph.ids ↔ 1 ≤ t ∧ t ≤ calls.length
  dependencies : ∀ (k : Nat) c, calls[k]? = some c → (s.graph.task (k + 1)).dependencies
    = c.dependencies.filter fun d => 1 ≤ d ∧ d ≤ k + 1

theorem Recorded.link {calls : List Submission} {s : Submissions} (h : Recorded calls s)
    (c : Submission) : Recorded (calls ++ [c])
      { nextTaskId := s.nextTaskId + 1, graph := s.link c, queued := s.queued } := by
  have hmem : ∀ t : Nat, t ∈ (s.graph.addNewTask s.nextTaskId c.options c.createdTime).ids ↔
      1 ≤ t ∧ t ≤ calls.length + 1 := by
    intro t
    refine mem_addTask.trans ?_
    rw [h.next]
    refine (or_congr (h.mem t) (Iff.refl (t = calls.length + 1))).trans ?_
    omega
  obtain ⟨hids, hself, hother⟩ := foldl_addDependency
    (g := s.graph.addNewTask s.nextTaskId c.options c.createdTime) (t := s.nextTaskId)
    c.dependencies (mem_addTask.mpr (.inr rfl))
  refine ⟨by simp [h.next], ?_, ?_⟩
  · intro t
    show t ∈ (s.link c).ids ↔ _
    rw [Submissions.link, hids, hmem, List.length_append, List.length_singleton]
  · intro k e hk
    show ((s.link c).task (k + 1)).dependencies = _
    rw [Submissions.link]
    by_cases hlast : k = calls.length
    · -- The new task: its own id is in the graph by now, the larger ones are not.
      subst hlast
      obtain rfl : c = e := by simpa using hk
      rw [← h.next, hself]
      rw [h.next]
      have hnew : ((s.graph.addNewTask (calls.length + 1) c.options c.createdTime).task
          (calls.length + 1)).dependencies = [] := by
        simp [addNewTask]
      rw [hnew, List.nil_append]
      refine List.filter_congr fun d _ => decide_eq_decide.mpr ?_
      have hd := hmem d
      rw [h.next] at hd
      exact hd
    · have hlt : k < calls.length := by
        have hbound := (List.getElem?_eq_some_iff.mp hk).1
        rw [List.length_append, List.length_singleton] at hbound
        omega
      rw [List.getElem?_append_left hlt] at hk
      have hne : k + 1 ≠ s.nextTaskId := by
        rw [h.next]
        exact fun he => hlast (Nat.succ.inj he)
      have hold : (s.graph.addNewTask s.nextTaskId c.options c.createdTime).task (k + 1)
          = s.graph.task (k + 1) := Function.update_of_ne hne ..
      rw [hother _ hne, hold]
      exact h.dependencies k e hk

/-- Handing the task to the pool touches no list. -/
theorem Recorded.submit {calls : List Submission} {s : Submissions} (h : Recorded calls s)
    (c : Submission) : Recorded (calls ++ [c]) (s.submit c) := by
  have hlink := h.link c
  unfold Submissions.submit
  dsimp only
  split
  next =>
    refine ⟨hlink.next, hlink.mem, ?_⟩
    intro k e hk
    rw [← hlink.dependencies k e hk]
    have hmark : ((s.link c).task s.nextTaskId).tryMarkEnqueued.2.dependencies
        = ((s.link c).task s.nextTaskId).dependencies := by
      rw [Task.tryMarkEnqueued_snd]
    exact modify_frame (g := s.link c) (t := s.nextTaskId) (u := k + 1)
      (f := fun _ => ((s.link c).task s.nextTaskId).tryMarkEnqueued.2) (·.dependencies) hmark
  next => exact ⟨hlink.next, hlink.mem, hlink.dependencies⟩

theorem recorded_submitAll (calls : List Submission) :
    Recorded calls (Submissions.submitAll calls) := by
  induction calls using List.reverseRecOn with
  | nil =>
    refine ⟨rfl, ?_, ?_⟩
    · intro t
      refine ⟨fun ht => absurd ht List.not_mem_nil, fun ht => ?_⟩
      exact absurd (Nat.le_trans ht.1 ht.2) (by simp)
    · intro k c hk
      exact absurd hk (by simp)
  | append_singleton calls c ih =>
    unfold Submissions.submitAll
    rw [List.foldl_append]
    exact ih.submit c

/-- The edges recorded: to an id the call was passed, at most as large as the one it drew. -/
theorem dependsOn_iff (calls : List Submission) (t d : Nat) :
    (Submissions.submitAll calls).graph.DependsOn (t + 1) d ↔
      ∃ c, calls[t]? = some c ∧ d ∈ c.dependencies ∧ 1 ≤ d ∧ d ≤ t + 1 := by
  have h := recorded_submitAll calls
  constructor
  · rintro ⟨hmem, hd⟩
    have hlt : t < calls.length := ((h.mem (t + 1)).mp hmem).2
    have hc : calls[t]? = some calls[t] := List.getElem?_eq_getElem hlt
    have hlist : d ∈ ((Submissions.submitAll calls).graph.task (t + 1)).dependencies := hd
    rw [h.dependencies t _ hc, List.mem_filter, decide_eq_true_eq] at hlist
    exact ⟨_, hc, hlist⟩
  · rintro ⟨c, hc, hd⟩
    have hlt : t < calls.length := (List.getElem?_eq_some_iff.mp hc).1
    refine ⟨(h.mem (t + 1)).mpr ⟨Nat.le_add_left 1 t, hlt⟩, ?_⟩
    show d ∈ ((Submissions.submitAll calls).graph.task (t + 1)).dependencies
    rw [h.dependencies t c hc, List.mem_filter, decide_eq_true_eq]
    exact hd

theorem pos_of_dependsOn {calls : List Submission} {t d : Nat}
    (h : (Submissions.submitAll calls).graph.DependsOn t d) : 0 < t :=
  (((recorded_submitAll calls).mem t).mp h.1).1

theorem descends_iff (calls : List Submission) :
    (Submissions.submitAll calls).graph.Descends ↔ NamesNoSelf calls := by
  constructor
  · intro h k c hk hself
    have hedge := (dependsOn_iff calls k (k + 1)).mpr
      ⟨c, hk, hself, Nat.le_add_left 1 k, Nat.le_refl _⟩
    exact Nat.lt_irrefl _ (h (k + 1) (k + 1) hedge)
  · intro h t d hedge
    obtain ⟨k, rfl⟩ := Nat.exists_eq_succ_of_ne_zero (Nat.ne_of_gt (pos_of_dependsOn hedge))
    obtain ⟨c, hk, hd, _, hle⟩ := (dependsOn_iff calls k d).mp hedge
    refine Nat.lt_of_le_of_ne hle ?_
    intro heq
    rw [heq] at hd
    exact h k c hk hd

theorem Descends.acyclic (h : g.Descends) : g.Acyclic := by
  intro t hcycle
  have hlt : ∀ u, Relation.TransGen g.DependsOn t u → u < t := by
    intro u hu
    induction hu with
    | single hstep => exact h _ _ hstep
    | tail _ hstep ih => exact Nat.lt_trans (h _ _ hstep) ih
  exact Nat.lt_irrefl t (hlt t hcycle)

/-- A call that names itself makes a cycle of one task. -/
theorem acyclic_iff (calls : List Submission) :
    (Submissions.submitAll calls).graph.Acyclic ↔ NamesNoSelf calls := by
  refine ⟨fun h => ?_, fun h => ((descends_iff calls).mpr h).acyclic⟩
  intro k c hk hself
  exact h (k + 1) (.single ((dependsOn_iff calls k (k + 1)).mpr
    ⟨c, hk, hself, Nat.le_add_left 1 k, Nat.le_refl _⟩))

theorem NamesNoSelf.of_append {before after : List Submission} (h : NamesNoSelf (before ++ after)) :
    NamesNoSelf before := by
  intro k c hk
  have hlt := (List.getElem?_eq_some_iff.mp hk).1
  exact h k c (by rw [List.getElem?_append_left hlt]; exact hk)

/-- **When submissions keep the graph acyclic.** After every call of a sequence the graph is
acyclic, and after every call each edge goes to a smaller id, if and only if no call passes the id
it draws itself. -/
theorem acyclic_after_every_call_iff (calls : List Submission) :
    ((∀ before after, calls = before ++ after → (Submissions.submitAll before).graph.Acyclic) ↔
      NamesNoSelf calls) ∧
    ((∀ before after, calls = before ++ after → (Submissions.submitAll before).graph.Descends) ↔
      NamesNoSelf calls) := by
  refine ⟨⟨fun h => ?_, fun h before after he => ?_⟩, ⟨fun h => ?_, fun h before after he => ?_⟩⟩
  · exact (acyclic_iff calls).mp (h calls [] (by simp))
  · exact (acyclic_iff before).mpr (NamesNoSelf.of_append (he ▸ h))
  · exact (descends_iff calls).mp (h calls [] (by simp))
  · exact (descends_iff before).mpr (NamesNoSelf.of_append (he ▸ h))

/-- The first submission passes 1, the id it is about to draw. -/
theorem cycle_of_own_id :
    ¬ (Submissions.submitAll [{ dependencies := [1] }]).graph.Acyclic := by
  intro h
  exact h 1 (.single ⟨by decide, by decide⟩)

end DependencyGraph
end NexusTask
