import Mathlib.Logic.Equiv.Fin.Basic
import NexusTask.Executor.Order
import NexusTask.Pool.Bag

/-!
# The executor over its thread pool

The threads of the executor are modelled over a list of queued tasks from which a worker takes any.
In a `Pooled` they have the pool instead: `submit` is what a client of the pool makes of it, one
queue after the other, and a worker takes what its search of the queues finds. Nobody stops the
executor. Whatever happens there, the executor could have done over the list, so what is proved of
every run over the list is true of the pool. The converse is not: the pool hands out a priority
before another one and a queue from its front.
-/

set_option autoImplicit false

namespace NexusTask
namespace Executor

open Transition

variable {m n : Nat}

/-- Those who submit to the pool: clients, workers and the scheduler thread. -/
abbrev PoolUser (m n : Nat) := Fin m ⊕ (Fin n ⊕ Fin 1)

/-- The client of the pool that a thread is while it is in `ThreadPool::submit`. -/
def user : PoolUser m n ≃ Fin (m + (n + 1)) :=
  (Equiv.sumCongr (Equiv.refl _) finSumFinEquiv).trans finSumFinEquiv

/-- The thread whose step it is. -/
def Action.thread : Action m n → PoolUser m n
  | .call c _ | .client c _ => .inl c
  | .poll _ | .scheduler => .inr (.inr 0)
  | .take w _ | .worker w _ _ => .inr (.inl w)

def Action.isTake : Action m n → Bool
  | .take _ _ => true
  | _ => false

namespace State

variable (s : State m n)

def priority (u : TaskId) : TaskPriority := (s.graph.task u).options.priority

/-- The queued tasks with their priorities. -/
def pooled : Multiset (TaskId × TaskPriority) :=
  (s.queued.map fun u => (u, s.priority u) : List (TaskId × TaskPriority))

/-- The task a thread gives to the pool next. -/
def submission : PoolUser m n → Option TaskId
  | .inl c =>
    match s.clients c with
    | .enqueue u => some u
    | _ => none
  | .inr (.inl w) =>
    match s.workers w with
    | .busy .resubmit u => some u
    | _ => none
  | .inr (.inr _) =>
    match s.scheduler with
    | .submitting u _ => some u
    | _ => none

end State

/-- The step in which a thread gives its task to the pool. -/
def PoolUser.submits : PoolUser m n → Action m n
  | .inl c => .client c 0
  | .inr (.inl w) => .worker w 0 true
  | .inr (.inr _) => .scheduler

/-- An executor and the pool it has made for itself. -/
structure Pooled (m n : Nat) where
  exec : State m n
  pool : Pool.State (m + (n + 1)) n TaskId

namespace Pooled

inductive Act (m n : Nat)
  | exec (a : Action m n)
  | pool (a : Pool.Action (m + (n + 1)) n TaskId)

variable (S : Pooled m n)

/-- The executor's own steps: a thread is not in the pool and is not about to use it. -/
def Allows (a : Action m n) : Prop :=
  S.pool.clients (user a.thread) = .idle ∧ S.exec.submission a.thread = none ∧ a.isTake = false

/-- The pool's steps: a thread submits its task with the task's priority, and a worker is done with
its task when it is back from the hooks. -/
def Permits : Pool.Action (m + (n + 1)) n TaskId → Prop
  | .call c (.submit u p) => S.exec.submission (user.symm c) = some u ∧ p = S.exec.priority u
  | .call _ _ => False
  | .worker w => (S.pool.workers w).hand = [] ∨
      S.exec.workers w = .idle ∧ S.pool.clients (user (.inr (.inl w))) = .idle
  | .client _ | .wake _ _ | .timeOut _ | .spurious _ => True

instance (a : Action m n) : Decidable (S.Allows a) := inferInstanceAs (Decidable (_ ∧ _ ∧ _))

instance : (a : Pool.Action (m + (n + 1)) n TaskId) → Decidable (S.Permits a)
  | .call _ (.submit u p) => inferInstanceAs (Decidable (S.exec.submission _ = some u ∧ p = _))
  | .call _ (.trySubmit _ _) | .call _ .pause | .call _ .resume | .call _ .shutdown => .isFalse id
  | .worker w => inferInstanceAs (Decidable (_ ∨ S.exec.workers w = .idle ∧ _))
  | .client _ | .wake _ _ | .timeOut _ | .spurious _ => .isTrue trivial

/-- What the executor does while its pool comes to `pool`: a thread has placed its task, or a worker
has taken one. -/
def shown (pool : Pool.State (m + (n + 1)) n TaskId) :
    Pool.Action (m + (n + 1)) n TaskId → Option (Action m n)
  | .client c =>
    if (S.pool.clients c).request.isSome ∧ (pool.clients c).succeeding = true then
      some (user.symm c).submits
    else none
  | .worker w =>
    match pool.workers w with
    | .execute u => some (.take w u)
    | _ => none
  | _ => none

/-- The steps of the executor in a step of the two. -/
def shows : Act m n → List (Action m n)
  | .exec a => [a]
  | .pool a => ((Pool.step S.pool a).bind fun pool => S.shown pool a).toList

/-- The pool has come to `pool`; it does not ask whether the executor can follow. -/
def follow (pool : Pool.State (m + (n + 1)) n TaskId)
    (a : Pool.Action (m + (n + 1)) n TaskId) : Pooled m n where
  pool := pool
  exec := match S.shown pool a with
    | some e => (Executor.step S.exec e).getD S.exec
    | none => S.exec

def step : Act m n → Option (Pooled m n)
  | .exec a =>
      if S.Allows a then (Executor.step S.exec a).map fun exec => { S with exec } else none
  | .pool a =>
      if S.Permits a then (Pool.step S.pool a).map fun pool => S.follow pool a else none

def start (m n : Nat) : Pooled m n := { exec := Executor.start m n, pool := Pool.start _ n TaskId }

/-- The executor's steps meet the condition. -/
def Meets (ok : State m n → Action m n → Prop) (S : Pooled m n) (a : Act m n) : Prop :=
  ∀ e ∈ S.shows a, ok S.exec e

instance (ok : State m n → Action m n → Prop) [∀ s a, Decidable (ok s a)] (S : Pooled m n)
    (a : Act m n) : Decidable (Meets ok S a) := inferInstanceAs (Decidable (∀ e ∈ _, _))

end Pooled

/-! ## The executor's side -/

section
variable {s t : State m n} {a : Action m n} {u : TaskId}

/-- A task keeps its priority. -/
theorem Move.priority (hm : Move s a t) (hlt : u < s.nextTaskId) : t.priority u = s.priority u := by
  rcases hm.fixed (·.options.priority) (u := u) (fun _ _ _ _ _ _ _ _ _ _ => rfl) with
    hsame | ⟨hnew, _⟩
  · exact hsame
  · exact absurd hnew (Nat.ne_of_lt hlt)

theorem pooled_eq (hm : Move s a t) {l : List TaskId} (hl : ∀ u ∈ l, u < s.nextTaskId)
    (hqueued : t.queued = l) :
    t.pooled = (l.map fun u => (u, s.priority u) : List (TaskId × TaskPriority)) := by
  unfold State.pooled
  rw [hqueued]
  congr 1
  refine List.map_congr_left fun u hu => ?_
  rw [hm.priority (hl u hu)]

/-- What a step does to the threads whose step it is not. -/
structure Others (s t : State m n) (i : PoolUser m n) : Prop where
  client : ∀ c, .inl c ≠ i → t.clients c = s.clients c
  worker : ∀ w, .inr (.inl w) ≠ i → t.workers w = s.workers w
  scheduler : .inr (.inr 0) ≠ i → t.scheduler = s.scheduler

theorem Others.of_client {c : Fin m} {pc : ClientPc} {i : PoolUser m n} (hi : i = .inl c)
    (hclients : t.clients = Function.update s.clients c pc) (hworkers : t.workers = s.workers)
    (hscheduler : t.scheduler = s.scheduler) : Others s t i := by
  subst hi
  refine ⟨fun d hd => ?_, fun w _ => congrFun hworkers w, fun _ => hscheduler⟩
  have hne : d ≠ c := fun heq => hd (congrArg Sum.inl heq)
  rw [hclients, Function.update_of_ne hne]

theorem Others.of_worker {w : Fin n} {pc : WorkerPc} {i : PoolUser m n} (hi : i = .inr (.inl w))
    (hworkers : t.workers = Function.update s.workers w pc) (hclients : t.clients = s.clients)
    (hscheduler : t.scheduler = s.scheduler) : Others s t i := by
  subst hi
  refine ⟨fun c _ => congrFun hclients c, fun v hv => ?_, fun _ => hscheduler⟩
  have hne : v ≠ w := fun heq => hv (congrArg (Sum.inr ∘ Sum.inl) heq)
  rw [hworkers, Function.update_of_ne hne]

theorem Others.of_scheduler {i : PoolUser m n} (hi : i = .inr (.inr 0))
    (hclients : t.clients = s.clients) (hworkers : t.workers = s.workers) : Others s t i := by
  subst hi
  exact ⟨fun c _ => congrFun hclients c, fun w _ => congrFun hworkers w, fun h => absurd rfl h⟩

theorem Move.others (hm : Move s a t) : Others s t a.thread := by
  cases hm with
  | call | client | newTask | addTask | addDependency | clientMarks | clientEnqueues | cancelFlag
  | cancelStatus | cancelNotify | cancelClear => exact .of_client rfl rfl rfl rfl
  | polls | schedulerRests | schedulerLoses | schedulerMarks | schedulerEnqueues =>
    exact .of_scheduler rfl rfl rfl
  | takes | line | workerNotifies | clears | resetsFlag | remarks | remarkLoses | resubmits =>
    exact .of_worker rfl rfl rfl rfl

theorem Others.submission {i j : PoolUser m n} (h : Others s t i) (hj : j ≠ i) :
    t.submission j = s.submission j := by
  unfold State.submission
  rcases j with c | w | k
  · simp only [h.client c hj]
  · simp only [h.worker w hj]
  · obtain rfl : k = 0 := Subsingleton.elim _ _
    simp only [h.scheduler hj]

/-- A step in which nobody uses the pool. -/
theorem Move.queued_eq (hm : Move s a t) (hsubmission : s.submission a.thread = none)
    (htake : a.isTake = false) : t.queued = s.queued := by
  cases hm with
  | clientEnqueues old => simp [State.submission, Action.thread, old] at hsubmission
  | schedulerEnqueues old => simp [State.submission, Action.thread, old] at hsubmission
  | resubmits old => simp [State.submission, Action.thread, old] at hsubmission
  | takes old mem => exact absurd htake (by simp [Action.isTake])
  | _ => rfl

/-- The worker whose step it is was not idle, unless it takes a task. -/
theorem Move.worker_busy (hm : Move s a t) (htake : a.isTake = false) {w : Fin n}
    (hbusy : t.workers w ≠ .idle) : s.workers w ≠ .idle := by
  by_cases hw : .inr (.inl w) = a.thread
  · intro hidle
    cases hm with
    | takes old mem => exact absurd htake (by simp [Action.isTake])
    | line old | workerNotifies old | clears old | resetsFlag old | remarks old | remarkLoses old
    | resubmits old =>
      obtain rfl := Sum.inl.inj (Sum.inr.inj hw)
      exact absurd (hidle.symm.trans old) (by simp)
    | _ => exact absurd hw (by simp [Action.thread])
  · rwa [← hm.others.worker w hw]

theorem submission_lt (hk : Known s) {i : PoolUser m n} (h : s.submission i = some u) :
    u < s.nextTaskId := by
  unfold State.submission at h
  split at h
  · split at h
    next old =>
      obtain rfl := Option.some.inj h
      exact hk.client_lt old (by simp [ClientPc.refers])
    next => exact absurd h (by simp)
  · split at h
    next old =>
      obtain rfl := Option.some.inj h
      exact hk.worker_lt old
    next => exact absurd h (by simp)
  · split at h
    next old =>
      obtain rfl := Option.some.inj h
      exact hk.scheduler_lt old (by simp [SchedulerPc.refers])
    next => exact absurd h (by simp)

/-- A thread that is about to give its task to the pool can do so. -/
theorem submits_step {i : PoolUser m n} (h : s.submission i = some u) :
    i.submits.thread = i ∧ ∃ t, step s i.submits = some t ∧ t.queued = s.queued ++ [u] := by
  unfold State.submission at h
  split at h
  next c =>
    split at h
    next old =>
      obtain rfl := Option.some.inj h
      exact ⟨rfl, (s.enqueue _).setClient c .idle,
        by simp only [PoolUser.submits, step, clientStep, old], rfl⟩
    next => exact absurd h (by simp)
  next w =>
    split at h
    next old =>
      obtain rfl := Option.some.inj h
      exact ⟨rfl, (s.enqueue _).finish w,
        by simp only [PoolUser.submits, step, lineStep, old], rfl⟩
    next => exact absurd h (by simp)
  next k =>
    obtain rfl : k = 0 := Subsingleton.elim _ _
    split at h
    next rest old =>
      obtain rfl := Option.some.inj h
      exact ⟨rfl, (s.enqueue _).setScheduler (.marking rest),
        by simp only [PoolUser.submits, step, schedulerStep, old], rfl⟩
    next => exact absurd h (by simp)

theorem submits_isTake (i : PoolUser m n) : i.submits.isTake = false := by
  rcases i with c | w | k
  · rfl
  · rfl
  · rfl

/-- The task is queued at its priority. -/
theorem pooled_append (hm : Move s a t) (hk : Known s) (hu : u < s.nextTaskId)
    (hqueued : t.queued = s.queued ++ [u]) : t.pooled = (u, s.priority u) ::ₘ s.pooled := by
  have hknown : ∀ x ∈ s.queued ++ [u], x < s.nextTaskId := by
    intro x hx
    rcases List.mem_append.mp hx with hold | hlast
    · exact hk.queued x hold
    · exact List.mem_singleton.mp hlast ▸ hu
  rw [pooled_eq hm hknown hqueued, List.map_append, ← Multiset.coe_add, add_comm]
  rfl

theorem pooled_erase (hm : Move s a t) (hk : Known s) (mem : u ∈ s.queued)
    (hqueued : t.queued = s.queued.erase u) : s.pooled = (u, s.priority u) ::ₘ t.pooled := by
  rw [pooled_eq hm (fun x hx => hk.queued x (List.mem_of_mem_erase hx)) hqueued]
  exact Multiset.coe_eq_coe.mpr ((List.perm_cons_erase mem).map _)

/-- What is in the pool is queued, at its priority. -/
theorem mem_pooled {p : TaskPriority} : (u, p) ∈ s.pooled ↔ u ∈ s.queued ∧ p = s.priority u := by
  show (u, p) ∈ List.map _ _ ↔ _
  rw [List.mem_map]
  constructor
  · rintro ⟨x, hx, heq⟩
    obtain ⟨rfl, rfl⟩ := Prod.mk.inj heq
    exact ⟨hx, rfl⟩
  · rintro ⟨hmem, rfl⟩
    exact ⟨u, hmem, rfl⟩

end

/-! ## Side by side -/

namespace Pooled

/-- The pool's queues hold the tasks of the list; who is in `ThreadPool::submit` is where the
executor submits; and a worker of the executor that is not idle has its task from the pool. -/
structure Joined (S : Pooled m n) : Prop where
  known : Known S.exec
  opened : Pool.Open S.pool
  bag : Pool.bag S.pool.queues = S.exec.pooled
  submitting : ∀ c x p, (S.pool.clients c).request = some (x, p) →
    S.exec.submission (user.symm c) = some x ∧ p = S.exec.priority x
  working : ∀ w, S.exec.workers w ≠ .idle → ∃ x, S.pool.workers w = .execute x

theorem joined_start : Joined (start m n) where
  known := known_start
  opened := Pool.open_start
  bag := Finset.sum_eq_zero fun _ _ => rfl
  submitting _ _ _ h := absurd h (by simp [start, Pool.start, Pool.ClientPc.request])
  working _ h := absurd rfl h

/-- What a step of the two comes to for the executor. -/
def Follows (S T : Pooled m n) (a : Act m n) : Prop :=
  (S.shows a = [] ∧ T.exec = S.exec) ∨
    ∃ e, S.shows a = [e] ∧ Executor.step S.exec e = some T.exec

variable {S T : Pooled m n}

/-- Another thread of the executor moves while `i` is in the pool. -/
theorem submission_kept {t : State m n} {e : Action m n} {i : PoolUser m n} {x : TaskId}
    (hk : Known S.exec) (hm : Move S.exec e t) (hi : i ≠ e.thread)
    (h : S.exec.submission i = some x) :
    t.submission i = some x ∧ t.priority x = S.exec.priority x :=
  ⟨(hm.others.submission hi).trans h, hm.priority (submission_lt hk h)⟩

/-- A step the pool has no part in. -/
theorem Joined.exec_step (h : Joined S) {a : Action m n} {t : State m n} (hallows : S.Allows a)
    (hstep : Executor.step S.exec a = some t) : Joined { S with exec := t } := by
  obtain ⟨hidle, hsubmission, htake⟩ := hallows
  have hm := Move.of_step hstep
  have hqueued := hm.queued_eq hsubmission htake
  refine ⟨h.known.move hm, h.opened, ?_, ?_, ?_⟩
  · show Pool.bag S.pool.queues = t.pooled
    rw [h.bag, pooled_eq hm h.known.queued hqueued]
    rfl
  · intro c x p hrequest
    obtain ⟨hsubmits, hp⟩ := h.submitting c x p hrequest
    have hother : user.symm c ≠ a.thread := by
      intro heq
      have hc : S.pool.clients c = .idle := by
        rw [← hidle, ← heq, Equiv.apply_symm_apply]
      rw [hc] at hrequest
      exact absurd hrequest (by simp [Pool.ClientPc.request])
    obtain ⟨hsame, hpriority⟩ := submission_kept h.known hm hother hsubmits
    exact ⟨hsame, hp.trans hpriority.symm⟩
  · exact fun w hbusy => h.working w (hm.worker_busy htake hbusy)

section Pool

variable {pool : Pool.State (m + (n + 1)) n TaskId} {b : Pool.Action (m + (n + 1)) n TaskId}

theorem leftOpen_of_permits (h : S.Permits b) : Pool.LeftOpen S.pool b := by
  cases b with
  | call c op =>
    cases op with
    | submit x p => trivial
    | trySubmit | pause | resume | shutdown => exact absurd h id
  | _ => trivial

/-- A step of the pool that the executor does not see. -/
theorem Joined.unseen (h : Joined S) (hopened : Pool.Open pool)
    (hqueues : pool.queues = S.pool.queues)
    (hrequest : ∀ c x p, (pool.clients c).request = some (x, p) →
      S.exec.submission (user.symm c) = some x ∧ p = S.exec.priority x)
    (hworking : ∀ w x, S.exec.workers w ≠ .idle → S.pool.workers w = .execute x →
      pool.workers w = .execute x) : Joined { S with pool } := by
  refine ⟨h.known, hopened, ?_, hrequest, ?_⟩
  · show Pool.bag pool.queues = S.exec.pooled
    rw [hqueues, h.bag]
  · intro w hbusy
    obtain ⟨x, hx⟩ := h.working w hbusy
    exact ⟨x, hworking w x hbusy hx⟩

/-- One client of the pool has moved, to where it still submits the same task or none. -/
theorem Joined.request_update (h : Joined S) {c : Fin (m + (n + 1))}
    {pc : Pool.ClientPc n TaskId} (hclients : pool.clients = Function.update S.pool.clients c pc)
    (hpc : ∀ x p, pc.request = some (x, p) →
      S.exec.submission (user.symm c) = some x ∧ p = S.exec.priority x) :
    ∀ d x p, (pool.clients d).request = some (x, p) →
      S.exec.submission (user.symm d) = some x ∧ p = S.exec.priority x := by
  intro d
  rw [hclients]
  by_cases hd : d = c
  · subst hd
    rw [Function.update_self]
    exact hpc
  · rw [Function.update_of_ne hd]
    exact h.submitting d

/-- A thread has placed its task in a queue of the pool. -/
theorem Joined.placed (h : Joined S) (hopened : Pool.Open pool) {c : Fin (m + (n + 1))}
    {x : TaskId} {p : TaskPriority} {r : Pool.QueueRef n}
    (hrequest : (S.pool.clients c).request = some (x, p)) (hlevel : r.2 = p)
    (hclients : pool.clients = Function.update S.pool.clients c (.notify x true))
    (hqueues : pool.queues = Function.update S.pool.queues r (S.pool.queues r ++ [x]))
    (hworking : ∀ w y, S.pool.workers w = .execute y → pool.workers w = .execute y) :
    ∃ t, Executor.step S.exec (user.symm c).submits = some t ∧ Joined { exec := t, pool } := by
  obtain ⟨hsubmits, rfl⟩ := h.submitting c x p hrequest
  obtain ⟨hthread, t, hstep, hqueued⟩ := submits_step hsubmits
  have hm := Move.of_step hstep
  refine ⟨t, hstep, h.known.move hm, hopened, ?_, ?_, ?_⟩
  · show Pool.bag pool.queues = t.pooled
    rw [hqueues, Pool.bag_append, hlevel, h.bag,
      pooled_append hm h.known (submission_lt h.known hsubmits) hqueued]
  · intro d y q hreq
    change (pool.clients d).request = some (y, q) at hreq
    rw [hclients] at hreq
    by_cases hd : d = c
    · subst hd
      rw [Function.update_self] at hreq
      exact absurd hreq (by simp [Pool.ClientPc.request])
    · rw [Function.update_of_ne hd] at hreq
      obtain ⟨hold, rfl⟩ := h.submitting d y q hreq
      have hother : user.symm d ≠ (user.symm c).submits.thread := by
        rw [hthread]
        exact fun heq => hd (user.symm.injective heq)
      obtain ⟨hsame, hpriority⟩ := submission_kept h.known hm hother hold
      exact ⟨hsame, hpriority.symm⟩
  · intro w hbusy
    obtain ⟨y, hy⟩ := h.working w (hm.worker_busy (submits_isTake _) hbusy)
    exact ⟨y, hworking w y hy⟩

/-- A worker has found a task in a queue of the pool. -/
theorem Joined.found (h : Joined S) (hopened : Pool.Open pool) {w : Fin n} {r : Pool.QueueRef n}
    {x : TaskId} {xs : List TaskId} (hhand : (S.pool.workers w).hand = [])
    (hfront : S.pool.queues r = x :: xs)
    (hqueues : pool.queues = Function.update S.pool.queues r xs)
    (hclients : pool.clients = S.pool.clients)
    (hworkers : pool.workers = Function.update S.pool.workers w (.execute x)) :
    ∃ t, Executor.step S.exec (.take w x) = some t ∧ Joined { exec := t, pool } := by
  have hbag := Pool.bag_front hfront
  rw [h.bag, ← hqueues] at hbag
  obtain ⟨hmem, hlevel⟩ := mem_pooled.mp (hbag ▸ Multiset.mem_cons_self (x, r.2) _)
  have hidle : S.exec.workers w = .idle := by
    by_contra hbusy
    obtain ⟨y, hy⟩ := h.working w hbusy
    rw [hy] at hhand
    exact absurd hhand (by simp [Pool.WorkerPc.hand])
  have hstep : Executor.step S.exec (.take w x) = some _ := if_pos ⟨hidle, hmem⟩
  have hm := Move.of_step hstep
  refine ⟨_, hstep, h.known.move hm, hopened, ?_, ?_, ?_⟩
  · rw [pooled_erase hm h.known hmem rfl, hlevel] at hbag
    exact ((Multiset.cons_inj_right _).mp hbag).symm
  · intro c y p hrequest
    change (pool.clients c).request = some (y, p) at hrequest
    rw [hclients] at hrequest
    obtain ⟨hsubmits, rfl⟩ := h.submitting c y p hrequest
    have hother : user.symm c ≠ (Action.take w x : Action m n).thread := by
      intro heq
      rw [heq] at hsubmits
      simp [Action.thread, State.submission, hidle] at hsubmits
    obtain ⟨hsame, hpriority⟩ := submission_kept h.known hm hother hsubmits
    exact ⟨hsame, hpriority.symm⟩
  · intro v hbusy
    show ∃ y, pool.workers v = .execute y
    rw [hworkers]
    by_cases hv : v = w
    · subst hv
      exact ⟨x, Function.update_self ..⟩
    · rw [Function.update_of_ne hv]
      refine h.working v ?_
      rwa [← hm.others.worker v (fun heq => hv (Sum.inl.inj (Sum.inr.inj heq)))]

theorem shows_pool (hstep : Pool.step S.pool b = some pool) :
    S.shows (.pool b) = (S.shown pool b).toList := by
  simp only [shows, hstep, Option.bind_some]

/-- A step of the pool that shows nothing. -/
theorem follow_unseen (hstep : Pool.step S.pool b = some pool) (hshown : S.shown pool b = none)
    (h : Joined { S with pool }) :
    Joined (S.follow pool b) ∧ Follows S (S.follow pool b) (.pool b) := by
  have hfollow : S.follow pool b = { S with pool } := by
    simp only [follow, hshown]
  rw [hfollow]
  refine ⟨h, .inl ⟨?_, rfl⟩⟩
  rw [shows_pool hstep, hshown]
  rfl

/-- A step of the pool that shows a step the executor can take. -/
theorem follow_seen {e : Action m n} (hstep : Pool.step S.pool b = some pool)
    (hshown : S.shown pool b = some e)
    (h : ∃ t, Executor.step S.exec e = some t ∧ Joined { exec := t, pool }) :
    Joined (S.follow pool b) ∧ Follows S (S.follow pool b) (.pool b) := by
  obtain ⟨t, ht, hjoined⟩ := h
  have hfollow : S.follow pool b = { exec := t, pool } := by
    simp only [follow, hshown, ht, Option.getD_some]
  rw [hfollow]
  refine ⟨hjoined, .inr ⟨e, ?_, ht⟩⟩
  rw [shows_pool hstep, hshown]
  rfl

/-- What a client of the pool has placed, if anything. -/
theorem shown_client {c : Fin (m + (n + 1))} :
    S.shown pool (.client c) =
      if (S.pool.clients c).request.isSome ∧ (pool.clients c).succeeding = true then
        some (user.symm c).submits
      else none := rfl

/-- A client of the pool moves, and neither places its task nor changes a queue. -/
theorem Joined.client_unseen (h : Joined S) (hopened : Pool.Open pool)
    (hstep : Pool.step S.pool b = some pool) (hb : ∀ w, b ≠ .worker w)
    (hshown : S.shown pool b = none) {c : Fin (m + (n + 1))} {pc : Pool.ClientPc n TaskId}
    (hclients : pool.clients = Function.update S.pool.clients c pc)
    (hqueues : pool.queues = S.pool.queues)
    (hpc : ∀ x p, pc.request = some (x, p) →
      S.exec.submission (user.symm c) = some x ∧ p = S.exec.priority x) :
    Joined (S.follow pool b) ∧ Follows S (S.follow pool b) (.pool b) := by
  refine follow_unseen hstep hshown (h.unseen hopened hqueues (h.request_update hclients hpc) ?_)
  intro w x _ hx
  exact (Pool.Move.of_step hstep).stays_executing hx (hb w)

theorem Joined.client_step (h : Joined S) (hopened : Pool.Open pool) {c : Fin (m + (n + 1))}
    (hstep : Pool.step S.pool (.client c) = some pool) :
    Joined (S.follow pool (.client c)) ∧
      Follows S (S.follow pool (.client c)) (.pool (.client c)) := by
  have hunseen : ∀ {pc : Pool.ClientPc n TaskId},
      pool.clients = Function.update S.pool.clients c pc → pool.queues = S.pool.queues →
      pc.succeeding = false →
      (∀ x p, pc.request = some (x, p) →
        S.exec.submission (user.symm c) = some x ∧ p = S.exec.priority x) →
      Joined (S.follow pool (.client c)) ∧
        Follows S (S.follow pool (.client c)) (.pool (.client c)) := by
    intro pc hclients hqueues hsucceeding
    refine h.client_unseen hopened hstep (by simp) ?_ hclients hqueues
    rw [shown_client, hclients, Function.update_self, hsucceeding]
    simp
  cases Pool.Effect.of_clientStep h.opened.running (h.opened.late c) hstep with
  | moves request old new late idle clients queues =>
    exact hunseen clients queues new fun x p hrequest =>
      h.submitting c x p (request ▸ hrequest)
  | places old level clients queues =>
    have hexecuting : ∀ w y, S.pool.workers w = .execute y → pool.workers w = .execute y :=
      fun w y hy => (Pool.Move.of_step hstep).stays_executing hy (by simp)
    refine follow_seen hstep ?_ (h.placed hopened old level clients queues hexecuting)
    rw [shown_client, old, clients, Function.update_self]
    rfl
  | refuses old clients queues =>
    exact hunseen clients queues rfl fun x p hrequest =>
      absurd hrequest (by simp [Pool.ClientPc.request])
  | returns old clients queues =>
    exact hunseen clients queues rfl fun x p hrequest =>
      absurd hrequest (by simp [Pool.ClientPc.request])

theorem Joined.worker_step (h : Joined S) (hopened : Pool.Open pool) {w : Fin n}
    (hpermits : S.Permits (.worker w)) (hstep : Pool.step S.pool (.worker w) = some pool) :
    Joined (S.follow pool (.worker w)) ∧
      Follows S (S.follow pool (.worker w)) (.pool (.worker w)) := by
  rcases Pool.Move.workerStep_cases hstep with
    ⟨r, x, xs, hhand, hfront, hqueues, hclients, hworkers⟩ |
    ⟨hqueues, hclients, pc, hpc, hworkers⟩
  · refine follow_seen (e := .take w x) hstep ?_
      (h.found hopened hhand hfront hqueues hclients hworkers)
    simp only [shown, hworkers, Function.update_self]
  · refine follow_unseen hstep ?_ (h.unseen hopened hqueues ?_ ?_)
    · simp only [shown, hworkers, Function.update_self]
      cases pc with
      | execute x => exact absurd hpc (by simp [Pool.WorkerPc.hand])
      | _ => rfl
    · rw [hclients]
      exact h.submitting
    · intro v x hbusy hx
      rw [hworkers]
      by_cases hv : v = w
      · -- The worker is back from the hooks, so the executor's is idle.
        subst hv
        rcases hpermits with hhand | ⟨hidle, _⟩
        · rw [hx] at hhand
          exact absurd hhand (by simp [Pool.WorkerPc.hand])
        · exact absurd hidle hbusy
      · rw [Function.update_of_ne hv]
        exact hx

theorem Joined.pool_step (h : Joined S) (hpermits : S.Permits b)
    (hstep : Pool.step S.pool b = some pool) :
    Joined (S.follow pool b) ∧ Follows S (S.follow pool b) (.pool b) := by
  have hopened : Pool.Open pool :=
    Pool.open_step S.pool b pool h.opened (leftOpen_of_permits hpermits) hstep
  have hmoved := hstep
  cases b with
  | client c => exact h.client_step hopened hstep
  | worker w => exact h.worker_step hopened hpermits hstep
  | call c op =>
    cases op with
    | submit u p =>
      simp only [Pool.step] at hmoved
      split at hmoved
      next =>
        obtain rfl := Option.some.inj hmoved
        refine h.client_unseen hopened hstep (by simp) rfl rfl rfl ?_
        intro x q hrequest
        obtain ⟨rfl, rfl⟩ := Prod.mk.inj (Option.some.inj hrequest)
        exact hpermits
      next => exact absurd hmoved (by simp)
    | trySubmit | pause | resume | shutdown => exact absurd hpermits id
  | wake c w =>
    simp only [Pool.step] at hmoved
    split at hmoved
    next x placed k hpc hblocked =>
      obtain rfl := Option.some.inj hmoved
      have hclients : (((S.pool.accept x).setWorker w (.lock k)).setClient c .idle).clients
          = Function.update S.pool.clients c .idle := by
        show Function.update (S.pool.accept x).clients c _ = _
        rw [Pool.State.accept_clients]
      refine h.client_unseen hopened hstep (by simp) rfl hclients (Pool.State.accept_queues x) ?_
      exact fun x p hrequest => absurd hrequest (by simp [Pool.ClientPc.request])
    next => exact absurd hmoved (by simp)
  | timeOut c =>
    simp only [Pool.step] at hmoved
    split at hmoved
    next x p hpc =>
      obtain rfl := Option.some.inj hmoved
      refine h.client_unseen hopened hstep (by simp) rfl rfl rfl ?_
      intro y q hrequest
      exact h.submitting c y q (hpc ▸ hrequest)
    next => exact absurd hmoved (by simp)
  | spurious w =>
    simp only [Pool.step] at hmoved
    split at hmoved
    next k hpc =>
      obtain rfl := Option.some.inj hmoved
      refine follow_unseen hstep rfl (h.unseen hopened rfl h.submitting ?_)
      intro v x _ hx
      exact (Pool.Move.of_step hstep).stays_executing hx (by simp)
    next => exact absurd hmoved (by simp)

end Pool

/-- **Step by step.** -/
theorem step_follows {a : Act m n} (h : Joined S) (hstep : S.step a = some T) :
    Joined T ∧ Follows S T a := by
  cases a with
  | exec a =>
    simp only [step] at hstep
    split at hstep
    next hallows =>
      obtain ⟨t, ht, rfl⟩ := Option.map_eq_some_iff.mp hstep
      exact ⟨h.exec_step hallows ht, .inr ⟨a, rfl, ht⟩⟩
    next => exact absurd hstep (by simp)
  | pool b =>
    simp only [step] at hstep
    split at hstep
    next hpermits =>
      obtain ⟨pool, hpool, rfl⟩ := Option.map_eq_some_iff.mp hstep
      exact h.pool_step hpermits hpool
    next => exact absurd hstep (by simp)

/-- The steps of the pool in a step of the two. -/
def poolSteps (_ : Pooled m n) : Act m n → List (Pool.Action (m + (n + 1)) n TaskId)
  | .exec _ => []
  | .pool b => [b]

theorem step_pool {a : Act m n} (hstep : S.step a = some T) :
    Run Pool.step Pool.LeftOpen S.pool (S.poolSteps a) T.pool := by
  cases a with
  | exec a =>
    simp only [step] at hstep
    split at hstep
    next =>
      obtain ⟨t, _, rfl⟩ := Option.map_eq_some_iff.mp hstep
      exact .nil
    next => exact absurd hstep (by simp)
  | pool b =>
    simp only [step] at hstep
    split at hstep
    next hpermits =>
      obtain ⟨pool, hpool, rfl⟩ := Option.map_eq_some_iff.mp hstep
      exact .single (leftOpen_of_permits hpermits) hpool
    next => exact absurd hstep (by simp)

theorem step_exec {ok : State m n → Action m n → Prop} {a : Act m n} (h : Joined S)
    (hok : Meets ok S a) (hstep : S.step a = some T) :
    Run Executor.step ok S.exec (S.shows a) T.exec := by
  rcases (step_follows h hstep).2 with ⟨hshows, hsame⟩ | ⟨e, hshows, he⟩
  · rw [hshows, hsame]
    exact .nil
  · rw [hshows]
    exact .single (hok e (hshows ▸ List.mem_singleton_self e)) he

/-- **The list is the pool.** In every run of the executor over its pool, whose threads submit,
search, block and wake as `ThreadPool` has them do, the pool makes a run of its own; the steps of
the executor, with one for each task placed in a queue and one for each task taken from one, make a
run over the list; and the list holds what is in the queues, at the priorities. Where these steps
meet a condition, the run over the list does. -/
theorem simulates_pool {ok : State m n → Action m n → Prop} {as : List (Act m n)}
    (run : Run step (Meets ok) (start m n) as S) :
    Run Executor.step ok (Executor.start m n) (observed step shows (start m n) as) S.exec ∧
    Run Pool.step Pool.LeftOpen (Pool.start _ n TaskId) (observed step poolSteps (start m n) as)
      S.pool ∧
    Pool.bag S.pool.queues = S.exec.pooled := by
  have hjoined : Preserved step (Meets ok) (Joined (m := m) (n := n)) :=
    fun _ _ _ h _ hstep => (step_follows h hstep).1
  refine ⟨?_, ?_, (run.invariant hjoined joined_start).bag⟩
  · exact run.simulates Pooled.exec (fun _ _ _ h hok hstep => step_exec h hok hstep) hjoined
      joined_start
  · exact run.simulates Pooled.pool (fun _ _ _ _ _ hstep => step_pool hstep) hjoined joined_start

/-- Task 1 is submitted, placed in the worker's queue, found there and executed. -/
def handedOver : List (Act 1 1) :=
  (Schedule.submit {}).dropLast.map .exec ++
  [.pool (.call (user (.inl 0)) (.submit 1 .normal)), .pool (.client (user (.inl 0))),
    .pool (.client (user (.inl 0))), .pool (.worker 0), .pool (.client (user (.inl 0))),
    .pool (.client (user (.inl 0))), .pool (.worker 0), .pool (.worker 0), .pool (.worker 0),
    .pool (.worker 0)] ++
  (Schedule.worker 13).map .exec ++ [.pool (.worker 0)]

theorem simulates_pool_handedOver :
    ∃ S : Pooled 1 1, Run step (Meets Orderly) (start 1 1) handedOver S ∧
      S.exec.returned = [1] ∧ S.pool.executed = [1] ∧
      Run Executor.step Orderly (Executor.start 1 1) (observed step shows (start 1 1) handedOver)
        S.exec := by
  have hrun : Run step (Meets Orderly) (start 1 1) handedOver _ := .of_isSome (by decide +kernel)
  exact ⟨_, hrun, by decide +kernel, by decide +kernel, (simulates_pool hrun).1⟩

end Pooled
end Executor
end NexusTask
