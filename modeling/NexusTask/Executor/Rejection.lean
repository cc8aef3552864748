import NexusTask.Executor.Entered
import NexusTask.Executor.Stopping

/-!
# A submission to a stopped pool

The call of `ThreadPool::submit` is the last thing `submit_internal` does. When it throws, the
submission has been counted, its promise registered, its task added to the graph and to the lists of
its dependencies, and nothing takes that back.

The facts about every run of the executor are needed here for every run of the system around it. An
event of the system that is no step of the executor only lets threads drop what they were about to
do: `Drops`.
-/

set_option autoImplicit false

namespace NexusTask
namespace Executor

open Transition

variable {m n k : Nat}

/-! ## What the system does to the executor -/

/-- A client leaves `submit_internal` at the pool, the scheduler and the workers let go of a task.
-/
structure Drops (s t : State m n) : Prop where
  graph : t.graph = s.graph
  queued : t.queued = s.queued
  next : t.nextTaskId = s.nextTaskId
  promises : t.promises = s.promises
  named : t.named = s.named
  present : t.present = s.present
  edges : t.edges = s.edges
  notified : t.notified = s.notified
  scheduler : ∀ u ∈ t.scheduler.refers, u ∈ s.scheduler.refers
  clients : ∀ c, t.clients c = s.clients c ∨ t.clients c = .idle ∧ ∃ u, s.clients c = .enqueue u
  workers : ∀ w, ∀ u ∈ (t.workers w).hand, u ∈ (s.workers w).hand

namespace Drops

variable {s t : State m n} {c : Fin m} {w : Fin n} {u : TaskId}

theorem refl (s : State m n) : Drops s s where
  graph := rfl
  queued := rfl
  next := rfl
  promises := rfl
  named := rfl
  present := rfl
  edges := rfl
  notified := rfl
  scheduler _ hu := hu
  clients _ := .inl rfl
  workers _ _ hu := hu

theorem client (old : s.clients c = .enqueue u) : Drops s (s.setClient c .idle) :=
  { refl s with
    clients := fun d => by
      by_cases hd : d = c
      · subst hd
        exact .inr ⟨Function.update_self .., u, old⟩
      · exact .inl (Function.update_of_ne hd ..) }

theorem scheduler_marking {rest : List TaskId} (old : s.scheduler = .submitting u rest) :
    Drops s (s.setScheduler (.marking rest)) :=
  { refl s with
    scheduler := fun v hv => by
      rw [old]
      exact List.mem_append_right _ hv }

theorem worker (pc : WorkerPc) (hpc : ∀ v ∈ pc.hand, v ∈ (s.workers w).hand)
    (ht : t = { s with workers := Function.update s.workers w pc, recorder := t.recorder }) :
    Drops s t := by
  rw [ht]
  refine { refl s with workers := fun v x hx => ?_ }
  by_cases hv : v = w
  · subst hv
    change x ∈ (Function.update s.workers v pc v).hand at hx
    rw [Function.update_self] at hx
    exact hpc x hx
  · change x ∈ (Function.update s.workers w pc v).hand at hx
    rwa [Function.update_of_ne hv] at hx

/-- A client's part in something it has no part in while it is idle. -/
theorem mem_client (h : Drops s t) {f : ClientPc → List TaskId} (hidle : f .idle = [])
    (hu : u ∈ f (t.clients c)) : u ∈ f (s.clients c) := by
  rcases h.clients c with hsame | ⟨hgone, _⟩
  · exact hsame ▸ hu
  · rw [hgone, hidle] at hu
    exact absurd hu List.not_mem_nil

/-- A client that has dependencies to add goes on. -/
theorem unadded (h : Drops s t) {d : TaskId} (hd : d ∈ (s.clients c).unadded u) :
    d ∈ (t.clients c).unadded u := by
  rcases h.clients c with hsame | ⟨_, x, old⟩
  · exact hsame ▸ hd
  · rw [old] at hd
    exact absurd hd List.not_mem_nil

end Drops

/-! ## What is known of a submission -/

/-- What holds in every run, of the executor and of the system. -/
structure Booked (s : State m n) : Prop where
  entered : Entered s
  history : History s

theorem booked_start : Booked (start m n) := ⟨entered_start, history_start⟩

namespace Booked

variable {s t : State m n} {a : Action m n}

theorem move (h : Booked s) (hm : Move s a t) : Booked t :=
  ⟨h.entered.move hm, h.history.move h.entered.known hm⟩

theorem known_drops (h : Known s) (hd : Drops s t) : Known t where
  queued u hu := by rw [hd.next]; exact h.queued u (hd.queued ▸ hu)
  ids u hu := by rw [hd.next]; exact h.ids u (hd.graph ▸ hu)
  dependents d u hu := by rw [hd.next]; exact h.dependents d u (hd.graph ▸ hu)
  scheduler u hu := by rw [hd.next]; exact h.scheduler u (hd.scheduler u hu)
  clients c u hu := by rw [hd.next]; exact h.clients c u (hd.mem_client rfl hu)
  workers w u hu := by rw [hd.next]; exact h.workers w u (hd.workers w u hu)
  unborn u hu := by rw [hd.graph]; exact h.unborn u (hd.next ▸ hu)

theorem entered_drops (h : Entered s) (hd : Drops s t) : Entered t where
  known := known_drops h.known hd
  submitter c d u hc hu :=
    h.submitter c d u (hd.mem_client (f := ClientPc.submitting) rfl hc) (hd.mem_client rfl hu)
  queued u hu := by rw [hd.graph]; exact h.queued u (hd.queued ▸ hu)
  scheduler u hu := by rw [hd.graph]; exact h.scheduler u (hd.scheduler u hu)
  clients c u hu := by rw [hd.graph]; exact h.clients c u (hd.mem_client rfl hu)
  workers w u hu := by rw [hd.graph]; exact h.workers w u (hd.workers w u hu)
  waiting u hu := by rw [hd.graph] at hu ⊢; exact h.waiting u hu
  entering c u hu := by rw [hd.graph]; exact h.entering c u (hd.mem_client rfl hu)

theorem history_drops (h : History s) (hd : Drops s t) : History t where
  tracks := by rw [hd.graph, hd.edges]; exact h.tracks
  ends e he := by rw [hd.graph, hd.named]; exact h.ends e (hd.edges ▸ he)
  decs e he := by rw [hd.notified]; exact h.decs e (hd.edges ▸ he)
  adding c u deps hc := by
    rcases hd.clients c with hsame | ⟨hgone, _⟩
    · rw [hd.graph]
      exact h.adding c u deps (hsame ▸ hc)
    · exact absurd (hgone.symm.trans hc) nofun
  unadded c u d hu := by
    rw [hd.named]
    exact h.unadded c u d (hd.mem_client (f := ClientPc.unadded u) rfl hu)
  present u d hp := by
    obtain ⟨hids, hlinked⟩ := h.present u d (hd.present ▸ hp)
    refine ⟨hd.graph ▸ hids, ?_⟩
    rcases hlinked with ⟨e, he, hends⟩ | ⟨c, hc⟩
    · exact .inl ⟨e, hd.edges ▸ he, hends⟩
    · exact .inr ⟨c, hd.unadded hc⟩

theorem drops (h : Booked s) (hd : Drops s t) : Booked t :=
  ⟨entered_drops h.entered hd, history_drops h.history hd⟩

/-- A task that is about to be enqueued by its submission is in the graph, and on the list of every
dependency that was there when the submission began. -/
theorem of_enqueue (h : Booked s) {c : Fin m} {u : TaskId} (old : s.clients c = .enqueue u) :
    u ∈ s.graph.ids ∧ ∀ d ∈ s.present u, u ∈ (s.graph.task d).dependents := by
  refine ⟨h.entered.clients c u (by rw [old]; exact List.mem_singleton_self u), fun d hd => ?_⟩
  rcases (h.history.present u d hd).2 with ⟨e, he, hdependent, hdependency⟩ | ⟨c', hc'⟩
  · apply List.count_pos_iff.mp
    rw [h.history.tracks.dependents d u]
    exact List.countP_pos_iff.mpr ⟨e, he, by simp [hdependent, hdependency]⟩
  · -- Only the submission of the task itself could still be adding dependencies.
    have hsubmits : u ∈ (s.clients c).submitting := by
      rw [old]
      exact List.mem_singleton_self u
    obtain rfl := h.entered.submitter c c' u hsubmits (ClientPc.submitting_of_unadded hc')
    rw [old] at hc'
    exact absurd hc' List.not_mem_nil

end Booked

namespace System

variable {S T : System m n k} {e : Event m n k}

/-- An event is a step of the executor, or lets threads drop what they were about to do. -/
theorem execStep (h : S.step e = some T) :
    (∃ a, Executor.step S.exec a = some T.exec) ∨ Drops S.exec T.exec := by
  cases execMove h with
  | act enabled step => exact .inl ⟨_, step⟩
  | admits _ exec | schedulerThrows _ exec | aside _ _ _ exec =>
    rw [exec]
    exact .inr (.refl _)
  | clientThrows _ old exec | clientGivesUp old exec =>
    rw [exec]
    exact .inr (.client old)
  | @workerThrows w u stopped old exec =>
    rw [exec]
    exact .inr (.worker (.busy .terminated u) (fun v hv => by rw [old]; exact hv) rfl)
  | schedulerGivesUp old exec =>
    rw [exec]
    exact .inr (.scheduler_marking old)
  | workerGivesUp old exec =>
    rw [exec]
    exact .inr (.worker .idle (fun v hv => absurd hv List.not_mem_nil) rfl)

theorem preserved_booked :
    Preserved (step (m := m) (n := n) (k := k)) free fun S => Booked S.exec := by
  intro S e T h _ hstep
  rcases execStep hstep with ⟨a, ha⟩ | hd
  · exact h.move (.of_step ha)
  · exact h.drops hd

/-- The test of `running_` that a client's `submit` fails. -/
theorem throws_client {c : Fin m} {u : TaskId} (old : S.exec.clients c = .enqueue u)
    (stopped : S.running = false) (h : S.step (.testRunning (.client c)) = some T) :
    Drops S.exec T.exec ∧ T.exec.clients c = .idle := by
  cases execMove h with
  | admits running exec => exact absurd (running.symm.trans stopped) (by simp)
  | clientThrows _ _ exec =>
    rw [exec]
    exact ⟨.client old, Function.update_self ..⟩
  | aside act tests gives exec => exact absurd rfl (tests (.client c))

end System

/-! ## Submissions that throw -/

/-- `t` is as `s` was before the submission of `u`. -/
structure RolledBack (s t : State m n) (u : TaskId) : Prop where
  ids : u ∉ t.graph.ids
  dependents : ∀ d, u ∉ (t.graph.task d).dependents
  promise : u ∉ t.promises.table
  submitted : t.recorder.metrics.tasksSubmitted = s.recorder.metrics.tasksSubmitted
  allCompleted : t.graph.allCompleted = s.graph.allCompleted

/-- **Nothing is rolled back.** A client calls a submission in any state that can be reached, and
the pool it comes to with task `u` has been stopped. When the exception leaves the call, `u` is in
the graph, and every dependency that was there when the submission began has it among its
dependents. -/
theorem System.submission_left_behind {es es' : List (Event m n k)} {S S' T T' : System m n k}
    {c : Fin m} {op : Call} {u : TaskId} (run : Run step free (start m n k) es S)
    (call : S.step (.act (.call c op)) = some S') (rest : Run step free S' es' T)
    (submits : T.exec.clients c = .enqueue u) (stopped : T.running = false)
    (throws : T.step (.testRunning (.client c)) = some T') :
    ¬ RolledBack S.exec T'.exec u ∧ u ∈ T'.exec.graph.ids ∧
      ∀ d ∈ T'.exec.present u, u ∈ (T'.exec.graph.task d).dependents := by
  have hrun : Run step free (start m n k) (es ++ [.act (.call c op)] ++ es') T :=
    (Run.snoc run trivial call).trans rest
  have hbooked := hrun.invariant preserved_booked booked_start
  obtain ⟨hids, hlisted⟩ := hbooked.of_enqueue submits
  obtain ⟨hdrops, _⟩ := throws_client submits stopped throws
  rw [hdrops.graph, hdrops.present]
  exact ⟨fun hback => hback.ids (hdrops.graph ▸ hids), hids, hlisted⟩

namespace Schedule

/-- Task 1 is executed to its end, and `stop` is called. -/
def stopped : List (Event 1 1 1) :=
  acts (.call 0 (.submit {}) :: client 8) ++ .testRunning (.client 0) :: acts (client 1) ++
  .workerLoop 0 :: acts (.take 0 1 :: worker 13) ++ stop

end Schedule

/-- All tasks are completed and the pool is shut down when task 2 is submitted. -/
def submissionBegins : System 1 1 1 :=
  (exec System.step free (System.start 1 1 1) Schedule.stopped).get (by decide +kernel)

def submissionCalled : System 1 1 1 :=
  (submissionBegins.step (.act (.call 0 (.submit {})))).get (by decide +kernel)

/-- It comes to the pool. -/
def submissionReaches : System 1 1 1 :=
  (exec System.step free submissionCalled (Schedule.acts (Schedule.client 8))).get
    (by decide +kernel)

def submissionThrew : System 1 1 1 :=
  (submissionReaches.step (.testRunning (.client 0))).get (by decide +kernel)

theorem submission_left_behind_stopped :
    ¬ RolledBack submissionBegins.exec submissionThrew.exec 2 ∧
      2 ∈ submissionThrew.exec.graph.ids ∧
      ∀ d ∈ submissionThrew.exec.present 2,
        2 ∈ (submissionThrew.exec.graph.task d).dependents := by
  have hcall : submissionBegins.step (.act (.call 0 (.submit {}))) = some submissionCalled :=
    (Option.some_get _).symm
  exact System.submission_left_behind (c := 0) (.of_isSome _) hcall (.of_isSome _)
    (by decide +kernel) (by decide +kernel) (Option.some_get _).symm

theorem submission_not_rolled_back : ¬ ∀ (es es' : List (Event 1 1 1)) (S S' T T' : System 1 1 1)
    (op : Call) (u : TaskId), Run System.step free (System.start 1 1 1) es S →
    S.step (.act (.call 0 op)) = some S' → Run System.step free S' es' T →
    T.exec.clients 0 = .enqueue u → T.running = false →
    T.step (.testRunning (.client 0)) = some T' → RolledBack S.exec T'.exec u := by
  intro hall
  have hback := hall Schedule.stopped (Schedule.acts (Schedule.client 8)) submissionBegins
    submissionCalled submissionReaches submissionThrew (.submit {}) 2 (.of_isSome _)
    (Option.some_get _).symm (.of_isSome _) (by decide +kernel) (by decide +kernel)
    (Option.some_get _).symm
  exact absurd hback.allCompleted (by decide +kernel)

end Executor
end NexusTask
