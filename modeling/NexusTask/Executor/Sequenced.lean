import NexusTask.Executor.Entered
import NexusTask.Executor.Order

/-!
# One after the other

`Sequenced` is the condition under which a task of `submit` is enqueued, executed and, if its
function throws, enqueued again, with nobody in between. Such a task is `Solitary`: it has no
dependencies and no promise, and no `cancel` has got to it. The steps that are not of its submission
or of its worker leave all that is recorded of it as it is, and where it is.
-/

set_option autoImplicit false

namespace NexusTask
namespace Executor

open Transition

variable {m n : Nat}

/-- A step of the submission of `u`, or of the worker that has it or takes it. -/
def Concerns (u : TaskId) (s : State m n) : Action m n → Prop
  | .client c _ => u ∈ (s.clients c).submitting
  | .take _ t => t = u
  | .worker w _ _ => u ∈ (s.workers w).hand
  | _ => False

/-- The function of `u` does as `outcome` says, for the first invocation, the second and so on, and
the callback returns. No `cancel` takes effect on the task, and it is the submission and the failure
hook that enqueue it: the scheduler never comes between one of them and `enqueued_`. -/
structure Sequenced (u : TaskId) (outcome : ℕ → Bool) (s : State m n) (a : Action m n) : Prop where
  function : ∀ w now ok, a = .worker w now ok → s.workers w = .busy .inFunction u →
    ok = outcome (s.started.count u - 1)
  callback : ∀ w now ok, a = .worker w now ok → s.workers w = .busy .callback u → ok = true
  uncancelled : u ∉ s.cancelTarget a
  unmarked : a = .scheduler → u ∈ s.scheduler.markTarget → (s.graph.task u).enqueued = true

/-- A task of `submit` with no timeout and no deadline that nobody has cancelled. The scheduler has
not marked it. -/
structure Solitary (retries : ℕ) (u : TaskId) (s : State m n) : Prop where
  history : History s
  registered : Registered s
  lt : u < s.nextTaskId
  named : s.named u = []
  retries : (s.graph.task u).options.maxRetries = retries
  timeout : (s.graph.task u).options.timeout = 0
  deadline : (s.graph.task u).options.deadline = none
  plain : (s.graph.task u).wrapsPromise = false
  uncancelled : (s.graph.task u).cancelled = false
  clients : ∀ c, u ∉ (s.clients c).cancelled
  scheduler : u ∉ s.scheduler.marked

namespace Solitary

variable {retries : ℕ} {u : TaskId} {outcome : ℕ → Bool} {s t : State m n} {a : Action m n}

/-- No edge leads from the task. -/
theorem dependent_ne (h : Solitary retries u s) {e : Edge} (he : e ∈ s.edges) :
    e.dependent ≠ u := by
  intro heq
  have hnamed := (h.history.ends e he).2.2
  rw [heq, h.named] at hnamed
  exact absurd hnamed List.not_mem_nil

theorem count (h : Solitary retries u s) : (s.graph.task u).dependenciesCount = 0 := by
  apply h.history.tracks.count_eq_zero
  intro e he heq
  exact absurd heq (h.dependent_ne he)

theorem notDependent (h : Solitary retries u s) (d : TaskId) :
    u ∉ (s.graph.task d).dependents := by
  rw [← List.count_eq_zero, h.history.tracks.dependents d u, List.countP_eq_zero]
  intro e he hends
  exact h.dependent_ne he (of_decide_eq_true hends).2

theorem notMem (h : Solitary retries u s) : u ∉ s.promises.table := h.registered.notMem h.plain

theorem notify_task (h : Solitary retries u s) (d : TaskId) :
    (s.notify d).graph.task u = s.graph.task u :=
  DependencyGraph.notifyTaskCompleted_of_notDependent (h.notDependent d)

theorem cancelled_move (h : Solitary retries u s) (hseq : Sequenced u outcome s a)
    (hm : Move s a t) : (t.graph.task u).cancelled = false := by
  cases hm.flags h.registered.known u with
  | same hc he => exact hc.trans h.uncancelled
  | clear clearer hc he => exact hc.trans h.uncancelled
  | mark target free hc => exact hc.trans h.uncancelled
  | cancel target fresh hc he => exact absurd target hseq.uncancelled

theorem scheduler_move (h : Solitary retries u s) (hseq : Sequenced u outcome s a)
    (hm : Move s a t) : u ∉ t.scheduler.marked := by
  cases hm with
  | @schedulerMarks x rest old free =>
    intro hmem
    obtain rfl := List.mem_singleton.mp hmem
    have hset := hseq.unmarked rfl (by rw [old]; exact List.mem_singleton_self u)
    exact absurd (free.symm.trans hset) (by simp)
  | polls | schedulerRests | schedulerLoses | schedulerEnqueues => exact List.not_mem_nil
  | _ => exact h.scheduler

theorem move (h : Solitary retries u s) (hseq : Sequenced u outcome s a) (hm : Move s a t) :
    Solitary retries u t where
  history := h.history.move h.registered.known hm
  registered := h.registered.move hm
  lt := Nat.lt_of_lt_of_le h.lt hm.nextTaskId_le
  named := (hm.named (Nat.ne_of_lt h.lt)).trans h.named
  retries := by rw [hm.options_eq h.lt]; exact h.retries
  timeout := by rw [hm.options_eq h.lt]; exact h.timeout
  deadline := by rw [hm.options_eq h.lt]; exact h.deadline
  plain := (hm.wrapsPromise_eq h.lt).trans h.plain
  uncancelled := h.cancelled_move hseq hm
  clients c hc := by
    rcases hm.cancelled hc with hold | ⟨_, hflag⟩
    · exact h.clients c hold
    · exact absurd ((h.cancelled_move hseq hm).symm.trans hflag) (by simp)
  scheduler := h.scheduler_move hseq hm

end Solitary

/-! ## The other threads -/

/-- What is recorded of `u` is as it was. -/
structure Unwritten (u : TaskId) (s t : State m n) : Prop where
  status : (t.graph.task u).status = (s.graph.task u).status
  enqueued : (t.graph.task u).enqueued = (s.graph.task u).enqueued
  attempts : (t.graph.task u).attempts = (s.graph.task u).attempts
  started : t.started.count u = s.started.count u
  notified : t.notified.count u = s.notified.count u

/-- And so is where it is. -/
structure Unmoved (u : TaskId) (s t : State m n) : Prop where
  queued : t.queued.count u = s.queued.count u
  clients : ∀ c, u ∈ (s.clients c).submitting ∨ u ∈ (t.clients c).submitting →
    t.clients c = s.clients c
  workers : ∀ w, u ∈ (s.workers w).hand ∨ u ∈ (t.workers w).hand → t.workers w = s.workers w

/-- Whoever works on another task has no step of `u` to take. -/
theorem ne_of_worker {u x : TaskId} {s : State m n} {w : Fin n} {now : Int} {ok : Bool}
    {line : Line} (hnot : ¬ Concerns u s (.worker w now ok)) (old : s.workers w = .busy line x) :
    x ≠ u := by
  rintro rfl
  apply hnot
  show x ∈ (s.workers w).hand
  rw [old]
  exact List.mem_singleton_self x

theorem ne_of_client {u x : TaskId} {s : State m n} {c : Fin m} {now : Int} {pc : ClientPc}
    (hnot : ¬ Concerns u s (.client c now)) (old : s.clients c = pc) (hx : x ∈ pc.submitting) :
    x ≠ u := by
  rintro rfl
  apply hnot
  show x ∈ (s.clients c).submitting
  rw [old]
  exact hx

theorem count_concat_of_ne {l : List TaskId} {x u : TaskId} (h : x ≠ u) :
    (l ++ [x]).count u = l.count u := by simp [h]

namespace Move

variable {retries : ℕ} {u : TaskId} {outcome : ℕ → Bool} {s t : State m n} {a : Action m n}

/-- A field of the task that has nothing to do with dependencies, and that `cancel` does not set. -/
theorem bystander_field {β : Type} (p : Task → β) (hm : Move s a t) (h : Solitary retries u s)
    (hseq : Sequenced u outcome s a) (hnot : ¬ Concerns u s a)
    (hp : ∀ k dependencies dependents count, p { k with
      dependencies := dependencies, dependents := dependents, dependenciesCount := count } = p k) :
    p (t.graph.task u) = p (s.graph.task u) := by
  have hmodify : ∀ {x : TaskId} {f : Task → Task}, t.graph = s.graph.modify x f → u ≠ x →
      p (t.graph.task u) = p (s.graph.task u) := by
    intro x f hg hne
    rw [hg, DependencyGraph.modify_of_ne hne]
  cases hm with
  | newTask now old =>
    exact hmodify (State.setClient_graph.trans State.newTask_graph) (Nat.ne_of_lt h.lt)
  | addDependency old => exact DependencyGraph.addDependency_frame p hp
  | clientMarks old free =>
    exact hmodify (State.setClient_graph.trans State.modify_graph)
      (ne_of_client hnot old (List.mem_singleton_self _)).symm
  | cancelFlag old fresh =>
    apply hmodify (State.setClient_graph.trans State.modify_graph)
    rintro rfl
    exact hseq.uncancelled (by simp [State.cancelTarget, old])
  | @cancelStatus c now x old =>
    apply hmodify (State.setClient_graph.trans State.modify_graph)
    rintro rfl
    exact h.clients c (by simp [old])
  | cancelNotify old => exact congrArg p (h.notify_task _)
  | @cancelClear c now x old =>
    apply hmodify (State.setClient_graph.trans State.modify_graph)
    rintro rfl
    exact h.clients c (by simp [old])
  | schedulerMarks old free =>
    apply hmodify (State.setScheduler_graph.trans State.modify_graph)
    rintro rfl
    have hset := hseq.unmarked rfl (by rw [old]; exact List.mem_singleton_self _)
    exact absurd (free.symm.trans hset) (by simp)
  | line old hline =>
    exact hmodify (State.goto_graph.trans State.modify_graph) (ne_of_worker hnot old).symm
  | workerNotifies old => exact congrArg p (h.notify_task _)
  | clears old => exact hmodify rfl (ne_of_worker hnot old).symm
  | resetsFlag old => exact hmodify rfl (ne_of_worker hnot old).symm
  | remarks old free =>
    exact hmodify (State.goto_graph.trans State.modify_graph) (ne_of_worker hnot old).symm
  | _ => rfl

theorem bystander_started (hm : Move s a t) (hnot : ¬ Concerns u s a) :
    t.started.count u = s.started.count u := by
  rcases hm.started with hsame | ⟨w, now, ok, x, rfl, old, hnew⟩
  · rw [hsame]
  · rw [hnew]
    exact count_concat_of_ne (ne_of_worker hnot old)

theorem bystander_notified (hm : Move s a t) (h : Solitary retries u s)
    (hnot : ¬ Concerns u s a) : t.notified.count u = s.notified.count u := by
  cases hm with
  | @cancelNotify c now x old =>
    apply count_concat_of_ne
    rintro rfl
    exact h.clients c (by simp [old])
  | workerNotifies old => exact count_concat_of_ne (ne_of_worker hnot old)
  | _ => rfl

theorem unwritten (hm : Move s a t) (h : Solitary retries u s) (hseq : Sequenced u outcome s a)
    (hnot : ¬ Concerns u s a) : Unwritten u s t where
  status := hm.bystander_field (·.status) h hseq hnot fun _ _ _ _ => rfl
  enqueued := hm.bystander_field (·.enqueued) h hseq hnot fun _ _ _ _ => rfl
  attempts := hm.bystander_field (·.attempts) h hseq hnot fun _ _ _ _ => rfl
  started := hm.bystander_started hnot
  notified := hm.bystander_notified h hnot

theorem bystander_queued (hm : Move s a t) (h : Solitary retries u s) (hnot : ¬ Concerns u s a) :
    t.queued.count u = s.queued.count u := by
  cases hm with
  | clientEnqueues old =>
    exact count_concat_of_ne (ne_of_client hnot old (List.mem_singleton_self _))
  | schedulerEnqueues old =>
    apply count_concat_of_ne
    rintro rfl
    exact h.scheduler (by rw [old]; exact List.mem_singleton_self _)
  | takes old mem => exact List.count_erase_of_ne fun heq => hnot heq.symm
  | resubmits old => exact count_concat_of_ne (ne_of_worker hnot old)
  | _ => rfl

theorem bystander_clients (hm : Move s a t) (hlt : u < s.nextTaskId) (hnot : ¬ Concerns u s a)
    {c : Fin m} (hc : u ∈ (s.clients c).submitting ∨ u ∈ (t.clients c).submitting) :
    t.clients c = s.clients c := by
  have hmem : u ∈ (s.clients c).submitting := by
    rcases hc with hold | hnew
    · exact hold
    · exact (hm.submitting hnew).resolve_right (Nat.ne_of_lt hlt)
  have hset : ∀ {d : Fin m} {pc : ClientPc}, t.clients = Function.update s.clients d pc →
      u ∉ (s.clients d).submitting → t.clients c = s.clients c := by
    intro d pc hd hout
    rw [hd]
    apply Function.update_of_ne
    rintro rfl
    exact hout hmem
  cases hm with
  | call old => exact hset rfl (by rw [old]; exact List.not_mem_nil)
  | client hstep => exact hset rfl hnot
  | newTask now old => exact hset rfl hnot
  | addTask old => exact hset rfl hnot
  | addDependency old => exact hset rfl hnot
  | clientMarks old free => exact hset rfl hnot
  | clientEnqueues old => exact hset rfl hnot
  | cancelFlag old fresh => exact hset rfl hnot
  | cancelStatus old => exact hset rfl hnot
  | cancelNotify old => exact hset rfl hnot
  | cancelClear old => exact hset rfl hnot
  | _ => rfl

theorem bystander_workers (hm : Move s a t) (hnot : ¬ Concerns u s a) {w : Fin n}
    (hw : u ∈ (s.workers w).hand ∨ u ∈ (t.workers w).hand) : t.workers w = s.workers w := by
  have hset : ∀ {v : Fin n} {pc : WorkerPc}, t.workers = Function.update s.workers v pc →
      u ∉ (s.workers v).hand → u ∉ pc.hand → t.workers w = s.workers w := by
    intro v pc hv hout hout'
    rw [hv] at hw ⊢
    apply Function.update_of_ne
    rintro rfl
    rw [Function.update_self] at hw
    exact hw.elim hout hout'
  have hbusy : ∀ {line : Line} {x : TaskId}, x ≠ u → u ∉ (WorkerPc.busy line x).hand := by
    intro line x hne hmem
    exact hne (List.mem_singleton.mp hmem).symm
  cases hm with
  | takes old mem =>
    exact hset rfl (by rw [old]; exact List.not_mem_nil) (hbusy hnot)
  | line old hline => exact hset rfl hnot (hbusy (ne_of_worker hnot old))
  | workerNotifies old => exact hset rfl hnot (hbusy (ne_of_worker hnot old))
  | resetsFlag old => exact hset rfl hnot (hbusy (ne_of_worker hnot old))
  | remarks old free => exact hset rfl hnot (hbusy (ne_of_worker hnot old))
  | clears old => exact hset rfl hnot List.not_mem_nil
  | remarkLoses old => exact hset rfl hnot List.not_mem_nil
  | resubmits old => exact hset rfl hnot List.not_mem_nil
  | _ => rfl

/-- A client leaves the workers alone. -/
theorem client_workers {c : Fin m} {now : Int} (hm : Move s (.client c now) t) :
    t.workers = s.workers := by
  cases hm <;> rfl

/-- A worker gives its task up for none. -/
theorem worker_keeps (hm : Move s a t) {w : Fin n} (hw : u ∈ (s.workers w).hand) :
    t.workers w = .idle ∨ u ∈ (t.workers w).hand := by
  rcases hm.workerMove w with hsame | hmove
  · exact .inr (hsame ▸ hw)
  · generalize s.workers w = pc, t.workers w = pc' at hmove hw
    cases hmove with
    | takes => exact absurd hw List.not_mem_nil
    | clears | remarkLoses | resubmits => exact .inl rfl
    | line | notifies | resetsFlag | remarks => exact .inr hw

theorem unmoved (hm : Move s a t) (h : Solitary retries u s) (hnot : ¬ Concerns u s a) :
    Unmoved u s t where
  queued := hm.bystander_queued h hnot
  clients _ hc := hm.bystander_clients h.lt hnot hc
  workers _ hw := hm.bystander_workers hnot hw

end Move

end Executor
end NexusTask
