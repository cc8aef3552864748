import NexusTask.Executor.Phases

/-!
# Edges and notifications

`History` says, for every run, that the counters of the graph are what the edges added so far and
the notifications make of them, and that a dependency named in a submission is an edge or still to
be added. `Concluded` says what `notify_task_completed` was called for in an orderly run: tasks that
are done with, and each of them once.
-/

set_option autoImplicit false

namespace NexusTask
namespace Executor

open Transition

variable {m n : Nat}

/-- There is an edge from `u` to `d`. -/
def State.Linked (s : State m n) (u d : TaskId) : Prop :=
  ∃ e ∈ s.edges, e.dependent = u ∧ e.dependency = d

/-! ## What a step does to the edges -/

theorem ClientStep.unadded_keep {s : State m n} {pc pc' : ClientPc} {u d : TaskId}
    (h : ClientStep s pc pc') (hd : d ∈ pc.unadded u) : d ∈ pc'.unadded u := by
  cases h <;> simp_all

namespace Move

variable {s t : State m n} {a : Action m n} {u d : TaskId}

theorem ids_keep (hm : Move s a t) (hu : u ∈ s.graph.ids) : u ∈ t.graph.ids := by
  cases hm with
  | addTask old => exact DependencyGraph.mem_addTask.mpr (.inl hu)
  | addDependency old => rw [State.setClient_graph, State.addDependency_ids]; exact hu
  | cancelNotify old => rw [State.setClient_graph, State.notify_ids]; exact hu
  | workerNotifies old => rw [State.goto_graph, State.notify_ids]; exact hu
  | _ => exact hu

theorem linked_notify (hu : s.Linked u d) (x : TaskId) : (s.notify x).Linked u d := by
  obtain ⟨e, he, hdependent, hdependency⟩ := hu
  by_cases hx : x ∈ s.graph.ids
  · refine ⟨e.notify x, ?_, by simpa using hdependent, by simpa using hdependency⟩
    show _ ∈ if x ∈ s.graph.ids then _ else _
    rw [if_pos hx]
    exact List.mem_map_of_mem he
  · refine ⟨e, ?_, hdependent, hdependency⟩
    show _ ∈ if x ∈ s.graph.ids then _ else _
    rw [if_neg hx]
    exact he

/-- An edge is never removed. -/
theorem linked_keep (hm : Move s a t) (hu : s.Linked u d) : t.Linked u d := by
  cases hm with
  | @addDependency c now x y rest old =>
    obtain ⟨e, he, hends⟩ := hu
    refine ⟨e, ?_, hends⟩
    show _ ∈ if x ∈ s.graph.ids ∧ y ∈ s.graph.ids then _ else _
    split
    · exact List.mem_append_left _ he
    · exact he
  | cancelNotify old => exact linked_notify hu _
  | workerNotifies old => exact linked_notify hu _
  | _ => exact hu

/-- A dependency to be added goes on to be added, or is added. -/
theorem unadded_keep (hm : Move s a t) {c : Fin m} (hd : d ∈ (s.clients c).unadded u)
    (hids : d ∈ s.graph.ids) (hedges : ∀ deps, s.clients c = .edges u deps → u ∈ s.graph.ids) :
    d ∈ (t.clients c).unadded u ∨ t.Linked u d := by
  rcases hm.clientMove c with hsame | hmove
  · exact .inl (hsame ▸ hd)
  · generalize s.clients c = pc, t.clients c = pc' at hmove hd hedges
    cases hmove with
    | quiet h => exact .inl (h.unadded_keep hd)
    | addTask => exact .inl hd
    | @addDependency x y rest edge =>
      by_cases hx : x = u
      · subst hx
        simp only [ClientPc.unadded, if_true] at hd ⊢
        rcases List.mem_cons.mp hd with rfl | hrest
        · exact .inr ⟨_, edge (hedges _ rfl) hids, rfl, rfl⟩
        · exact .inl hrest
      · exact absurd hd (by simp [hx])
    | _ => exact absurd hd (by simp)

/-- The edges to a task are decremented for with each of its notifications. -/
theorem edge_notified (hm : Move s a t) {e : Edge} (hids : e.dependency ∈ s.graph.ids)
    (he : e ∈ s.edges) :
    { e with decs := e.decs +
      (t.notified.count e.dependency - s.notified.count e.dependency) } ∈ t.edges := by
  have hkept : t.edges = s.edges → t.notified = s.notified → { e with decs := e.decs +
      (t.notified.count e.dependency - s.notified.count e.dependency) } ∈ t.edges := by
    intro hedges hnotified
    rw [hedges, hnotified, Nat.sub_self]
    exact he
  have hnotify : ∀ {x : TaskId}, t.edges = (s.notify x).edges → t.notified = s.notified ++ [x] →
      { e with decs := e.decs +
        (t.notified.count e.dependency - s.notified.count e.dependency) } ∈ t.edges := by
    intro x hedges hnotified
    rw [hedges, hnotified, List.count_append, Nat.add_sub_cancel_left]
    show _ ∈ if x ∈ s.graph.ids then _ else _
    by_cases hx : e.dependency = x
    · subst hx
      rw [if_pos hids, List.count_singleton_self]
      refine List.mem_map.mpr ⟨e, he, ?_⟩
      simp [Edge.notify]
    · have hsame : e.notify x = e := by simp [Edge.notify, hx]
      have hcount : [x].count e.dependency = 0 := by simp [Ne.symm hx]
      rw [hcount]
      split
      · exact List.mem_map.mpr ⟨e, he, hsame⟩
      · exact he
  cases hm with
  | @addDependency c now x y rest old =>
    show { e with decs := e.decs + (s.notified.count _ - s.notified.count _) } ∈
      if x ∈ s.graph.ids ∧ y ∈ s.graph.ids then _ else _
    rw [Nat.sub_self]
    split
    · exact List.mem_append_left _ he
    · exact he
  | cancelNotify old => exact hnotify rfl rfl
  | workerNotifies old => exact hnotify rfl rfl
  | _ => exact hkept rfl rfl

/-- An edge of afterwards was there before, decremented for once for every notification of its
dependency, or it has just been added. -/
theorem edge (hm : Move s a t) (hids : ∀ e ∈ s.edges, e.dependency ∈ s.graph.ids) {e : Edge}
    (he : e ∈ t.edges) :
    (∃ f ∈ s.edges, f.dependent = e.dependent ∧ f.dependency = e.dependency ∧
      e.decs + s.notified.count e.dependency = f.decs + t.notified.count e.dependency) ∨
    (e.decs = 0 ∧ t.notified = s.notified ∧ e.dependent ∈ s.graph.ids ∧
      e.dependency ∈ s.graph.ids ∧ e.dependency ∈ s.addTarget a ∧
      ∃ c, e.dependency ∈ (s.clients c).unadded e.dependent) := by
  have hkept : t.edges = s.edges → t.notified = s.notified → ∃ f ∈ s.edges,
      f.dependent = e.dependent ∧ f.dependency = e.dependency ∧
      e.decs + s.notified.count e.dependency = f.decs + t.notified.count e.dependency :=
    fun hedges hnotified => ⟨e, hedges ▸ he, rfl, rfl, by rw [hnotified]⟩
  -- A notification counts on both sides: in the edges to its task and in the history.
  have hnotify : ∀ {x : TaskId}, t.edges = (s.notify x).edges → t.notified = s.notified ++ [x] →
      ∃ f ∈ s.edges, f.dependent = e.dependent ∧ f.dependency = e.dependency ∧
      e.decs + s.notified.count e.dependency = f.decs + t.notified.count e.dependency := by
    intro x hedges hnotified
    rw [hedges] at he
    change e ∈ if x ∈ s.graph.ids then _ else _ at he
    rw [hnotified, List.count_append]
    split at he
    · obtain ⟨f, hf, rfl⟩ := List.mem_map.mp he
      refine ⟨f, hf, by simp, by simp, ?_⟩
      by_cases hx : f.dependency = x
      · subst hx
        simp only [Edge.notify, if_true, List.count_singleton_self]
        omega
      · simp [Edge.notify, hx, Ne.symm hx]
    next hnot =>
      have hx : x ≠ e.dependency := by
        rintro rfl
        exact hnot (hids e he)
      exact ⟨e, he, rfl, rfl, by simp [hx]⟩
  cases hm with
  | @addDependency c now x y rest old =>
    by_cases hold : e ∈ s.edges
    · exact .inl ⟨e, hold, rfl, rfl, rfl⟩
    · change e ∈ if x ∈ s.graph.ids ∧ y ∈ s.graph.ids then _ else _ at he
      split at he
      next hmem =>
        obtain rfl := List.mem_singleton.mp ((List.mem_append.mp he).resolve_left hold)
        exact .inr ⟨rfl, rfl, hmem.1, hmem.2, by simp [State.addTarget, old],
          c, by rw [old]; simp⟩
      next => exact absurd he hold
  | cancelNotify old => exact .inl (hnotify rfl rfl)
  | workerNotifies old => exact .inl (hnotify rfl rfl)
  | _ => exact .inl (hkept rfl rfl)

theorem named (hm : Move s a t) (hu : u ≠ s.nextTaskId) : t.named u = s.named u := by
  cases hm with
  | newTask now old => exact Function.update_of_ne hu ..
  | _ => rfl

theorem present (hm : Move s a t) (hd : d ∈ t.present u) :
    d ∈ s.present u ∨
      (u = s.nextTaskId ∧ d ∈ s.graph.ids ∧ ∃ c, d ∈ (t.clients c).unadded u) := by
  cases hm with
  | @newTask c deps options async now old =>
    change d ∈ Function.update s.present s.nextTaskId _ u at hd
    by_cases hu : u = s.nextTaskId
    · subst hu
      rw [Function.update_self] at hd
      obtain ⟨hdeps, hids⟩ := List.mem_filter.mp hd
      refine .inr ⟨rfl, of_decide_eq_true hids, c, ?_⟩
      show d ∈ (Function.update s.clients c _ c).unadded s.nextTaskId
      rw [Function.update_self]
      simpa using hdeps
    · rw [Function.update_of_ne hu] at hd
      exact .inl hd
  | _ => exact .inl hd

/-- `notify_task_completed` is called by a worker or a `cancel` that has come to it. -/
theorem notified (hm : Move s a t) :
    t.notified = s.notified ∨ ∃ x, t.notified = s.notified ++ [x] ∧
      ((∃ w, s.workers w = .busy .notify x ∧ t.workers w = .busy .clear x) ∨
        ∃ c, s.clients c = .cancelNotify x ∧ t.clients c = .cancelClear x) := by
  cases hm with
  | @cancelNotify c now x old =>
    exact .inr ⟨x, rfl, .inr ⟨c, old, Function.update_self ..⟩⟩
  | @workerNotifies w now ok x old =>
    exact .inr ⟨x, rfl, .inl ⟨w, old, Function.update_self ..⟩⟩
  | _ => exact .inl rfl

theorem notified_keep (hm : Move s a t) (hu : u ∈ s.notified) : u ∈ t.notified := by
  rcases hm.notified with hsame | ⟨x, hnew, _⟩
  · exact hsame ▸ hu
  · rw [hnew]
    exact List.mem_append_left _ hu

end Move

/-! ## Every run -/

structure History (s : State m n) : Prop where
  tracks : Tracks s.graph s.edges
  ends : ∀ e ∈ s.edges, e.dependent ∈ s.graph.ids ∧ e.dependency ∈ s.graph.ids ∧
    e.dependency ∈ s.named e.dependent
  /-- Not every notification finds the edge already there. -/
  decs : ∀ e ∈ s.edges, e.decs ≤ s.notified.count e.dependency
  adding : ∀ c u deps, s.clients c = .edges u deps → u ∈ s.graph.ids
  unadded : ∀ c u, ∀ d ∈ (s.clients c).unadded u, d ∈ s.named u
  present : ∀ u, ∀ d ∈ s.present u,
    d ∈ s.graph.ids ∧ (s.Linked u d ∨ ∃ c, d ∈ (s.clients c).unadded u)

theorem history_start : History (start m n) where
  tracks := ⟨fun d t => rfl, fun t => rfl⟩
  ends e he := absurd he (by simp [start])
  decs e he := absurd he (by simp [start])
  adding c u deps h := absurd h (by simp [start])
  unadded c u d hd := absurd hd (by simp [start])
  present u d hd := absurd hd (by simp [start])

namespace History

variable {s t : State m n} {a : Action m n} {u d : TaskId}

theorem tracks_step (h : History s) {g : DependencyGraph} {next : TaskId} {edges : List Edge}
    (hg : GraphStep s g next edges) : Tracks g edges := by
  cases hg with
  | same => exact h.tracks
  | newTask k fresh => exact h.tracks.modify fresh.dependents fresh.count
  | addTask old => exact h.tracks.addTask
  | @addDependency c x y rest old =>
    show Tracks _ (if x ∈ s.graph.ids ∧ y ∈ s.graph.ids then _ else _)
    by_cases hids : x ∈ s.graph.ids ∧ y ∈ s.graph.ids
    · rw [if_pos hids]
      exact h.tracks.addDependency hids.1 hids.2
    · rw [if_neg hids, DependencyGraph.addDependency, if_neg hids]
      exact h.tracks
  | notify x =>
    show Tracks _ (if x ∈ s.graph.ids then _ else _)
    by_cases hids : x ∈ s.graph.ids
    · rw [if_pos hids]
      exact h.tracks.notify hids
    · rw [if_neg hids, DependencyGraph.notifyTaskCompleted_of_notMem hids]
      exact h.tracks
  | touch known same => exact h.tracks.modify same.dependents same.count

theorem ends_move (h : History s) (hknown : Known s) (hm : Move s a t) {e : Edge}
    (he : e ∈ t.edges) : e.dependent ∈ t.graph.ids ∧ e.dependency ∈ t.graph.ids ∧
      e.dependency ∈ t.named e.dependent := by
  have hends : e.dependent ∈ s.graph.ids ∧ e.dependency ∈ s.graph.ids ∧
      e.dependency ∈ s.named e.dependent := by
    rcases hm.edge (fun f hf => (h.ends f hf).2.1) he with
      ⟨f, hf, hdependent, hdependency, _⟩ | ⟨_, _, hdependent, hdependency, _, c, hunadded⟩
    · rw [← hdependent, ← hdependency]
      exact h.ends f hf
    · exact ⟨hdependent, hdependency, h.unadded c _ _ hunadded⟩
  refine ⟨hm.ids_keep hends.1, hm.ids_keep hends.2.1, ?_⟩
  rw [hm.named (Nat.ne_of_lt (hknown.ids _ hends.1))]
  exact hends.2.2

theorem decs_move (h : History s) (hm : Move s a t) {e : Edge} (he : e ∈ t.edges) :
    e.decs ≤ t.notified.count e.dependency := by
  rcases hm.edge (fun f hf => (h.ends f hf).2.1) he with ⟨f, hf, _, hdependency, hdecs⟩ | ⟨hzero, _⟩
  · have hle := h.decs f hf
    rw [hdependency] at hle
    omega
  · rw [hzero]
    exact Nat.zero_le _

theorem adding_move (h : History s) (hm : Move s a t) {c : Fin m} {deps : List TaskId}
    (hc : t.clients c = .edges u deps) : u ∈ t.graph.ids := by
  rcases hm.clientMove c with hsame | hmove
  · exact hm.ids_keep (h.adding c u deps (hsame ▸ hc))
  · generalize hold : s.clients c = pc, hnew : t.clients c = pc' at hmove hc
    cases hmove with
    | @call op => cases op <;> exact absurd hc (by simp [Call.entry])
    | quiet hstep => cases hstep <;> exact absurd hc (by simp)
    | addTask ids =>
      obtain ⟨rfl, _⟩ := ClientPc.edges.inj hc
      exact ids
    | addDependency edge =>
      obtain ⟨rfl, _⟩ := ClientPc.edges.inj hc
      exact hm.ids_keep (h.adding c _ _ hold)
    | _ => exact absurd hc (by simp)

theorem unadded_move (h : History s) (hknown : Known s) (hm : Move s a t) {c : Fin m}
    (hd : d ∈ (t.clients c).unadded u) : d ∈ t.named u := by
  rcases hm.unadded hd with hold | ⟨_, hnew⟩
  · have hlt := hknown.clients c u
      (ClientPc.refers_of_submitting (ClientPc.submitting_of_unadded hold))
    rw [hm.named (Nat.ne_of_lt hlt)]
    exact h.unadded c u d hold
  · exact hnew

theorem present_move (h : History s) (hm : Move s a t) (hd : d ∈ t.present u) :
    d ∈ t.graph.ids ∧ (t.Linked u d ∨ ∃ c, d ∈ (t.clients c).unadded u) := by
  rcases hm.present hd with hold | ⟨_, hids, hunadded⟩
  · obtain ⟨hids, hlinked | ⟨c, hunadded⟩⟩ := h.present u d hold
    · exact ⟨hm.ids_keep hids, .inl (hm.linked_keep hlinked)⟩
    · refine ⟨hm.ids_keep hids, ?_⟩
      rcases hm.unadded_keep hunadded hids (h.adding c u) with hstill | hlinked
      · exact .inr ⟨c, hstill⟩
      · exact .inl hlinked
  · exact ⟨hm.ids_keep hids, .inr hunadded⟩

theorem move (h : History s) (hknown : Known s) (hm : Move s a t) : History t where
  tracks := h.tracks_step (hknown.graphStep hm)
  ends _ := h.ends_move hknown hm
  decs _ := h.decs_move hm
  adding _ _ _ := h.adding_move hm
  unadded _ _ _ := h.unadded_move hknown hm
  present _ _ := h.present_move hm

end History

/-! ## Orderly runs -/

/-- The task is done with: nobody will execute it or call `notify_task_completed` for it. -/
structure State.Concluded (s : State m n) (d : TaskId) : Prop where
  outcome : (s.graph.task d).cancelled = true ∨ (s.graph.task d).Finished
  workers : ∀ w line, s.workers w = .busy line d → line = .clear ∨ line = .remark
  clients : ∀ c, d ∉ (s.clients c).cancelling

structure Ended (s : State m n) : Prop where
  once : ∀ d, s.notified.count d ≤ 1
  concluded : ∀ d ∈ s.notified, s.Concluded d

theorem ended_start : Ended (start m n) where
  once d := Nat.zero_le _
  concluded d hd := absurd hd (by simp [start])

theorem ClientStep.cancelling {s : State m n} {pc pc' : ClientPc} {u : TaskId}
    (h : ClientStep s pc pc') (hu : u ∈ pc'.cancelling) : u ∈ pc.cancelling := by
  cases h <;> simp_all

theorem Move.cancelling {s t : State m n} {a : Action m n} (hm : Move s a t) {c : Fin m}
    {u : TaskId} (hu : u ∈ (t.clients c).cancelling) :
    u ∈ (s.clients c).cancelling ∨
      (u ∈ s.cancelTarget a ∧ (s.graph.task u).cancelled = false) := by
  rcases hm.clientMove c with hsame | hmove
  · exact .inl (hsame ▸ hu)
  · generalize s.clients c = pc, t.clients c = pc' at hmove hu
    cases hmove with
    | call => exact absurd (Call.entry_cancelling _ ▸ hu) List.not_mem_nil
    | quiet h => exact .inl (h.cancelling hu)
    | cancelFlag target fresh flag =>
      obtain rfl := List.mem_singleton.mp hu
      exact .inr ⟨target, fresh⟩
    | cancelStatus => exact .inl hu
    | _ => exact absurd hu (by simp)

namespace Sound

variable {s t : State m n} {a : Action m n} {u d : TaskId}

/-- A task that is done with is not both waiting and not cancelled. -/
theorem not_fresh (hd : s.Concluded d) (hwaiting : (s.graph.task d).status.isWaiting = true)
    (hfresh : (s.graph.task d).cancelled = false) : False := by
  rcases hd.outcome with hcancelled | hfinished
  · exact absurd (hfresh.symm.trans hcancelled) (by simp)
  · exact absurd (hwaiting.symm.trans hfinished.not_waiting) (by simp)

theorem concluded_lt (h : Sound s) (hd : s.Concluded d) : d < s.nextTaskId := by
  rcases hd.outcome with hcancelled | hfinished
  · exact h.known.launched_lt (.cancelled hcancelled)
  · exact h.known.launched_lt (.begun hfinished.not_waiting)

theorem outcome_move (h : Sound s) (hok : Orderly s a) (hm : Move s a t) (hd : s.Concluded d) :
    (t.graph.task d).cancelled = true ∨ (t.graph.task d).Finished := by
  rcases hd.outcome with hcancelled | hfinished
  · exact .inl ((hm.flags h.known d).cancelled_mono hcancelled)
  · right
    cases hm.phase d with
    | same status canRetry => exact hfinished.congr status canRetry
    | born new status => exact absurd new (Nat.ne_of_lt (h.concluded_lt hd))
    | line act old hline next =>
      rcases hd.workers _ _ old with rfl | rfl <;> exact absurd hline nofun
    | cancelFlag target fresh status =>
      exact (not_fresh hd (hok.cancel d target fresh).waiting fresh).elim
    | @cancelStatus c old next status =>
      exact absurd (by rw [old]; exact List.mem_singleton_self d) (hd.clients c)
    | notified pos status =>
      -- A task that has begun waits for no dependency.
      have hsettled := h.launch.settled d (.begun hfinished.not_waiting)
      exact absurd pos (Int.not_lt.mpr hsettled.count)

theorem concluded_workers_move (h : Sound s) (hok : Orderly s a) (hm : Move s a t)
    (hd : s.Concluded d) {w : Fin n} {line : Line} (hw : t.workers w = .busy line d) :
    line = .clear ∨ line = .remark := by
  rcases hm.workerMove w with hsame | hmove
  · exact hd.workers w line (hsame ▸ hw)
  · generalize hold : s.workers w = pc at hmove
    rw [hw] at hmove
    cases hmove with
    | takes mem =>
      have henqueued := h.tokens.enqueued_of_queued mem
      exact (not_fresh hd (h.phase.awaited d (.inl mem)) (h.tokens.not_cancelled henqueued)).elim
    | line act hline => rcases hd.workers w _ hold with rfl | rfl <;> exact absurd hline nofun
    | notifies => exact absurd (hd.workers w _ hold) (by simp)
    | resetsFlag => exact .inr rfl
    | remarks target free =>
      obtain ⟨hwaiting, hfresh⟩ := hok.mark d target free
      exact (not_fresh hd hwaiting hfresh).elim

theorem concluded_move (h : Sound s) (hok : Orderly s a) (hm : Move s a t) (hd : s.Concluded d) :
    t.Concluded d where
  outcome := h.outcome_move hok hm hd
  workers _ _ := h.concluded_workers_move hok hm hd
  clients c hc := by
    rcases hm.cancelling hc with hold | ⟨target, fresh⟩
    · exact hd.clients c hold
    · exact not_fresh hd (hok.cancel d target fresh).waiting fresh

/-- The worker that has called `notify_task_completed` had the task for itself. -/
theorem concluded_of_worker (h : Sound s) {w : Fin n} (hw : s.workers w = .busy .clear d) :
    s.Concluded d := by
  have hheld : d ∈ (s.workers w).held := hw ▸ WorkerPc.mem_held rfl
  refine ⟨.inr (h.phase.workers w .clear d hw), fun v line hv => ?_, fun c hc => ?_⟩
  · by_cases hremark : line = .remark
    · exact .inr hremark
    · obtain rfl := h.tokens.holder_unique hheld
        (hv ▸ WorkerPc.mem_held (Line.holds_of_ne_remark hremark))
      exact .inl (WorkerPc.busy.inj (hv.symm.trans hw)).1
  · have hcancelled := h.tokens.cancelled c d (ClientPc.cancelled_of_cancelling hc)
    have hfresh := h.tokens.not_cancelled (h.tokens.enqueued_of_held hheld)
    exact absurd (hfresh.symm.trans hcancelled) (by simp)

/-- So had the `cancel`. -/
theorem concluded_of_client (h : Sound s) {c : Fin m} (hc : s.clients c = .cancelClear d) :
    s.Concluded d := by
  have hmem : d ∈ (s.clients c).cancelled := by rw [hc]; exact List.mem_singleton_self d
  have hcancelled := h.tokens.cancelled c d hmem
  refine ⟨.inl hcancelled, fun v line hv => ?_, fun e he => ?_⟩
  · by_cases hremark : line = .remark
    · exact .inr hremark
    · have henqueued := h.tokens.enqueued_of_held
        (hv ▸ WorkerPc.mem_held (Line.holds_of_ne_remark hremark))
      exact absurd (hcancelled.symm.trans (h.tokens.not_cancelled henqueued)) (by simp)
  · obtain rfl := h.phase.canceller c e d hmem (ClientPc.cancelled_of_cancelling he)
    rw [hc] at he
    exact absurd he (by simp)

end Sound

namespace Ended

variable {s t : State m n} {a : Action m n} {d : TaskId}

theorem move (h : Ended s) (hsound : Sound s) (hok : Orderly s a) (hm : Move s a t) : Ended t := by
  have ht := hsound.move hok hm
  rcases hm.notified with hsame | ⟨x, hnew, hx⟩
  · exact ⟨fun d => hsame ▸ h.once d,
      fun d hd => hsound.concluded_move hok hm (h.concluded d (hsame ▸ hd))⟩
  · -- Whoever notifies stands at a line nobody stands at once the task has been notified for.
    have hfirst : x ∉ s.notified := by
      intro hmem
      rcases hx with ⟨w, old, _⟩ | ⟨c, old, _⟩
      · exact absurd ((h.concluded x hmem).workers w _ old) (by simp)
      · exact (h.concluded x hmem).clients c (by rw [old]; exact List.mem_singleton_self x)
    refine ⟨fun d => ?_, fun d hd => ?_⟩
    · rw [hnew, List.count_append]
      have hle := h.once d
      by_cases hdx : x = d
      · subst hdx
        simp [List.count_eq_zero.mpr hfirst]
      · simpa [hdx] using hle
    · rw [hnew] at hd
      rcases List.mem_append.mp hd with hold | hlast
      · exact hsound.concluded_move hok hm (h.concluded d hold)
      · obtain rfl := List.mem_singleton.mp hlast
        rcases hx with ⟨w, _, next⟩ | ⟨c, _, next⟩
        · exact ht.concluded_of_worker next
        · exact ht.concluded_of_client next

end Ended

end Executor
end NexusTask
