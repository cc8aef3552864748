import Mathlib.Algebra.BigOperators.Fin
import NexusTask.Pool.Shutdown

/-!
# Where a submission goes

A pool that nobody shuts down, seen from its callers: which submissions have returned, with what
result, and whether the call changed a queue. Each submission has a number, so that two submissions
of one task are told apart.

A submission is in one place at a time: in the call that makes it, in one queue, or taken. The
routes through `submit` differ only in how long the call lasts; `Effect` lists what a step can do to
the queues, and `Conserved` follows from that.
-/

set_option autoImplicit false

namespace NexusTask
namespace Pool

open Transition

variable {m n : Nat} {τ : Type}

structure Submission (τ : Type) where
  number : Nat
  task : τ
  taskPriority : TaskPriority
  priorityOverride : Option TaskPriority
  deriving DecidableEq

/-- `priority_override.value_or(task->priority())`. -/
def Submission.priority (x : Submission τ) : TaskPriority := x.priorityOverride.getD x.taskPriority

/-- A call of `submit` or `try_submit` that returned: with true for `submit` and for a `try_submit`
that found room. `touched` says whether a step of the call changed a queue. -/
structure Return (τ : Type) where
  submission : Submission τ
  result : Bool
  touched : Bool
  deriving DecidableEq

/-- The pool, the number of the next submission, the submissions that returned, and for each client
whether its current call has changed a queue. -/
structure Observed (m n : Nat) (τ : Type) where
  pool : State m n (Submission τ)
  next : Nat
  returned : List (Return τ)
  touched : Fin m → Bool

/-- What can happen to a pool that is not shut down. -/
inductive Event (m n : Nat) (τ : Type)
  | submit (c : Fin m) (kind : SubmitKind) (task : τ) (taskPriority : TaskPriority)
      (priorityOverride : Option TaskPriority)
  | pause (c : Fin m)
  | resume (c : Fin m)
  | client (c : Fin m)
  | wake (c : Fin m) (w : Fin n)
  | timeOut (c : Fin m)
  | worker (w : Fin n)
  | spurious (w : Fin n)

/-- The call `kind` stands for. -/
def SubmitKind.call {α : Type} : SubmitKind → α → TaskPriority → Call α
  | .submit, x, p => .submit x p
  | .trySubmit, x, p => .trySubmit x p

namespace ClientPc

variable {α : Type}

/-- The task and the priority of a submission that has not placed its task. -/
def request : ClientPc n α → Option (α × TaskPriority)
  | .testRunning _ x p | .pickWorker _ x p | .tryLocal _ x p _ | .tryGlobal _ x p
  | .waitEnqueue x p | .recheck x p => some (x, p)
  | _ => none

/-- The task of a submission in progress. -/
def submitting : ClientPc n α → Option α
  | .notify x _ => some x
  | pc => pc.request.map (·.1)

/-- The tasks a client has still to place. -/
def unplaced (pc : ClientPc n α) : List α := (pc.request.map (·.1)).toList

/-- Only its notification is left, so the submission is about to return successfully. -/
def succeeding : ClientPc n α → Bool
  | .notify _ _ => true
  | _ => false

end ClientPc

namespace Observed

variable [DecidableEq τ]

def start (m n : Nat) (τ : Type) : Observed m n τ :=
  { pool := Pool.start m n (Submission τ), next := 0, returned := [], touched := fun _ => false }

/-- Client `c` has moved, and the pool is `t` now. -/
def observe (o : Observed m n τ) (c : Fin m) (t : State m n (Submission τ)) : Observed m n τ :=
  let touched := o.touched c || decide (t.queues ≠ o.pool.queues)
  { o with
    pool := t
    touched := Function.update o.touched c touched
    returned := match (o.pool.clients c).submitting, t.clients c with
      | some x, .idle =>
          o.returned ++ [{ submission := x, result := (o.pool.clients c).succeeding, touched }]
      | _, _ => o.returned }

def step (o : Observed m n τ) : Event m n τ → Option (Observed m n τ)
  | .submit c kind task taskPriority priorityOverride =>
      let x : Submission τ := { number := o.next, task, taskPriority, priorityOverride }
      (Pool.step o.pool (.call c (kind.call x x.priority))).map fun t =>
        { o with pool := t, next := o.next + 1, touched := Function.update o.touched c false }
  | .pause c => (Pool.step o.pool (.call c .pause)).map (o.observe c)
  | .resume c => (Pool.step o.pool (.call c .resume)).map (o.observe c)
  | .client c => (Pool.step o.pool (.client c)).map (o.observe c)
  | .wake c w => (Pool.step o.pool (.wake c w)).map (o.observe c)
  | .timeOut c => (Pool.step o.pool (.timeOut c)).map (o.observe c)
  | .worker w => (Pool.step o.pool (.worker w)).map fun t => { o with pool := t }
  | .spurious w => (Pool.step o.pool (.spurious w)).map fun t => { o with pool := t }

/-- The submissions for which `submit` returned, or `try_submit` returned true. -/
def submitted (o : Observed m n τ) : List (Submission τ) :=
  (o.returned.filter (·.result)).map (·.submission)

/-- The tasks in all the queues. -/
def queued (o : Observed m n τ) : Multiset (Submission τ) :=
  ∑ r, (o.pool.queues r : Multiset (Submission τ))

/-- No call of `submit` or `try_submit` is in progress. -/
def NoneSubmitting (o : Observed m n τ) : Prop := ∀ c, (o.pool.clients c).submitting = none

end Observed

/-! ## `pending_tasks` -/

section
variable {α : Type}

/-- `PriorityQueueSet::size`. -/
def setSize (q : Queues n α) (owner : Option (Fin n)) : Nat :=
  ([TaskPriority.low, .normal, .high, .critical].map fun p => (q (owner, p)).length).sum

/-- `pending_tasks`. -/
def pendingTasks (q : Queues n α) : Nat :=
  setSize q none + ((List.finRange n).map fun w => setSize q (some w)).sum

theorem pendingTasks_eq (q : Queues n α) : pendingTasks q = ∑ r, (q r).length := by
  have hset : ∀ owner, setSize q owner = ∑ p, (q (owner, p)).length := by
    intro owner
    show _ = Finset.sum {TaskPriority.low, TaskPriority.normal, TaskPriority.high,
      TaskPriority.critical} _
    simp [setSize]
  have hlocal : ((List.finRange n).map fun w => setSize q (some w)).sum
      = ∑ w, setSize q (some w) := (Fin.sum_univ_def _).symm
  rw [pendingTasks, hlocal, Fintype.sum_prod_type, Fintype.sum_option, hset]
  simp only [hset]

end

/-! ## What a step does to the queues -/

section
variable {α : Type}

/-- What a step of a running pool does to the queues and to the submissions, by the client that
takes it, if one does. -/
inductive Effect (s t : State m n α) : Option (Fin m) → Prop
  | still (clients : t.clients = s.clients) (queues : t.queues = s.queues)
      (placed : t.placed = s.placed) (taken : t.taken = s.taken) : Effect s t none
  | takes {r x xs} (front : s.queues r = x :: xs) (clients : t.clients = s.clients)
      (queues : t.queues = Function.update s.queues r xs) (placed : t.placed = s.placed)
      (taken : t.taken = s.taken ++ [x]) : Effect s t none
  | moves {c pc} (request : pc.request = (s.clients c).request)
      (old : (s.clients c).succeeding = false) (new : pc.succeeding = false)
      (late : pc.late = false) (idle : pc = .idle → (s.clients c).request = none)
      (clients : t.clients = Function.update s.clients c pc) (queues : t.queues = s.queues)
      (placed : t.placed = s.placed) (taken : t.taken = s.taken) : Effect s t (some c)
  | places {c x p r} (old : (s.clients c).request = some (x, p)) (level : r.2 = p)
      (clients : t.clients = Function.update s.clients c (.notify x true))
      (queues : t.queues = Function.update s.queues r (s.queues r ++ [x]))
      (placed : t.placed = s.placed ++ [x]) (taken : t.taken = s.taken) : Effect s t (some c)
  | refuses {c x p} (old : (s.clients c).request = some (x, p))
      (clients : t.clients = Function.update s.clients c .idle) (queues : t.queues = s.queues)
      (placed : t.placed = s.placed) (taken : t.taken = s.taken) : Effect s t (some c)
  | returns {c x} (old : s.clients c = .notify x true)
      (clients : t.clients = Function.update s.clients c .idle) (queues : t.queues = s.queues)
      (placed : t.placed = s.placed) (taken : t.taken = s.taken) : Effect s t (some c)

namespace Effect

variable {s t : State m n α} {c : Fin m} {w : Fin n}

/-- One try to put the task into queue `r`. -/
theorem of_place {x : α} {p : TaskPriority} {r : QueueRef n} {full : ClientPc n α}
    (old : (s.clients c).request = some (x, p)) (level : r.2 = p)
    (hfull : Effect s (s.setClient c full) (some c)) : Effect s (s.place c r x full) (some c) := by
  unfold State.place
  cases h : tryEnqueue s.queues r x with
  | none => exact hfull
  | some q =>
    obtain ⟨_, rfl⟩ := tryEnqueue_eq_some h
    exact .places old level rfl rfl rfl rfl

theorem of_clientStep (hrun : s.running = true) (hlate : (s.clients c).late = false)
    (h : clientStep s c = some t) : Effect s t (some c) := by
  unfold clientStep at h
  split at h
  next => exact absurd h (by simp)
  next kind x p hpc =>
    obtain rfl := Option.some.inj h
    rw [hrun]
    exact .moves (by rw [hpc]; rfl) (by rw [hpc]; rfl) rfl rfl (by simp) rfl rfl rfl rfl
  next kind x p hpc =>
    split at h
    · obtain rfl := Option.some.inj h
      exact .moves (by rw [hpc]; rfl) (by rw [hpc]; rfl) rfl rfl (by simp) rfl rfl rfl rfl
    · exact absurd h (by simp)
  next kind x p target hpc =>
    obtain rfl := Option.some.inj h
    exact .of_place (by rw [hpc]; rfl) rfl
      (.moves (by rw [hpc]; rfl) (by rw [hpc]; rfl) rfl rfl (by simp) rfl rfl rfl rfl)
  next kind x p hpc =>
    obtain rfl := Option.some.inj h
    refine .of_place (by rw [hpc]; rfl) rfl ?_
    cases kind with
    | submit => exact .moves (by rw [hpc]; rfl) (by rw [hpc]; rfl) rfl rfl (by simp) rfl rfl rfl rfl
    | trySubmit =>
      have hrequest : (s.clients c).request = some (x, p) := by rw [hpc]; rfl
      exact .refuses hrequest rfl rfl rfl rfl
  next x p hpc =>
    obtain rfl := Option.some.inj h
    exact .of_place (by rw [hpc]; rfl) rfl
      (.moves (by rw [hpc]) (by rw [hpc]; rfl) rfl rfl (by simp) rfl rfl rfl rfl)
  next x p hpc =>
    obtain rfl := Option.some.inj h
    rw [hrun]
    exact .moves (by rw [hpc]; rfl) (by rw [hpc]; rfl) rfl rfl (by simp) rfl rfl rfl rfl
  next x placed hpc =>
    split at h
    next =>
      obtain rfl := Option.some.inj h
      cases placed with
      | false => rw [hpc] at hlate; exact absurd hlate (by simp [ClientPc.late])
      | true =>
        exact .returns hpc (by simp [State.setClient]) (by simp [State.setClient])
          (by simp [State.setClient]) (by simp [State.setClient])
    next => exact absurd h (by simp)
  next hpc =>
    obtain rfl := Option.some.inj h
    exact .moves (by rw [hpc]; rfl) (by rw [hpc]; rfl) rfl rfl (fun _ => by rw [hpc]; rfl)
      rfl rfl rfl rfl
  next hpc =>
    obtain rfl := Option.some.inj h
    exact .moves (by rw [hpc]; rfl) (by rw [hpc]; rfl) rfl rfl (by simp) rfl rfl rfl rfl
  next hpc =>
    obtain rfl := Option.some.inj h
    exact .moves (by rw [hpc]; rfl) (by rw [hpc]; rfl) rfl rfl (fun _ => by rw [hpc]; rfl)
      rfl rfl rfl rfl
  -- The rest is inside `shutdown`.
  next hpc => rw [hpc] at hlate; exact absurd hlate (by simp [ClientPc.late, ClientPc.stopping])
  next hpc => rw [hpc] at hlate; exact absurd hlate (by simp [ClientPc.late, ClientPc.stopping])
  next hpc => rw [hpc] at hlate; exact absurd hlate (by simp [ClientPc.late, ClientPc.stopping])

theorem of_workerStep (h : workerStep s w = some t) : Effect s t none := by
  unfold workerStep at h
  split at h
  next => obtain rfl := Option.some.inj h; exact .still rfl rfl rfl rfl
  next => obtain rfl := Option.some.inj h; exact .still rfl rfl rfl rfl
  next =>
    split at h
    next => obtain rfl := Option.some.inj h; exact .still rfl rfl rfl rfl
    next => exact absurd h (by simp)
  next =>
    split at h
    next => obtain rfl := Option.some.inj h; exact .still rfl rfl rfl rfl
    next => obtain rfl := Option.some.inj h; exact .still rfl rfl rfl rfl
  next => obtain rfl := Option.some.inj h; exact .still rfl rfl rfl rfl
  next => exact absurd h (by simp)
  next => obtain rfl := Option.some.inj h; exact .still rfl rfl rfl rfl
  next r rest hpc =>
    split at h
    next => obtain rfl := Option.some.inj h; exact .still rfl rfl rfl rfl
    next hfront => obtain rfl := Option.some.inj h; exact .takes hfront rfl rfl rfl rfl
  next => obtain rfl := Option.some.inj h; exact .still rfl rfl rfl rfl
  next => exact absurd h (by simp)

/-- A notification that wakes a worker, or reaches nobody, ends the submission. -/
theorem of_wake (hlate : (s.clients c).late = false) (h : Pool.step s (.wake c w) = some t) :
    Effect s t (some c) := by
  simp only [Pool.step] at h
  split at h
  next x placed k hpc hblocked =>
    obtain rfl := Option.some.inj h
    cases placed with
    | false => rw [hpc] at hlate; exact absurd hlate (by simp [ClientPc.late])
    | true =>
      exact .returns hpc (by simp [State.setClient, State.setWorker])
        (by simp [State.setClient, State.setWorker]) (by simp [State.setClient, State.setWorker])
        (by simp [State.setClient, State.setWorker])
  next => exact absurd h (by simp)

theorem of_timeOut (h : Pool.step s (.timeOut c) = some t) : Effect s t (some c) := by
  simp only [Pool.step] at h
  split at h
  next x p hpc =>
    obtain rfl := Option.some.inj h
    exact .moves (by rw [hpc]; rfl) (by rw [hpc]; rfl) rfl rfl (by simp) rfl rfl rfl rfl
  next => exact absurd h (by simp)

theorem of_spurious (h : Pool.step s (.spurious w) = some t) : Effect s t none := by
  simp only [Pool.step] at h
  split at h
  next => obtain rfl := Option.some.inj h; exact .still rfl rfl rfl rfl
  next => exact absurd h (by simp)

/-- A call that submits nothing. -/
theorem of_call {op : Call α} (hrequest : (op.entry : ClientPc n α).request = none)
    (hlate : (op.entry : ClientPc n α).late = false)
    (hsucceed : (op.entry : ClientPc n α).succeeding = false)
    (h : Pool.step s (.call c op) = some t) : Effect s t (some c) := by
  simp only [Pool.step] at h
  split at h
  next hpc =>
    obtain rfl := Option.some.inj h
    exact .moves (by rw [hpc, hrequest]; rfl) (by rw [hpc]; rfl) hsucceed hlate
      (fun _ => by rw [hpc]; rfl) rfl rfl rfl rfl
  next => exact absurd h (by simp)

end Effect

end

/-! ## Conservation -/

section
variable {α : Type} [DecidableEq α] {s t : State m n α} {c : Fin m} {pc : ClientPc n α}

/-- How many submissions of `x` are in progress and have not placed it. -/
def State.unplaced (s : State m n α) (x : α) : Nat := tally (ClientPc.unplaced ∘ s.clients) x

theorem unplaced_eq (h : t.clients = Function.update s.clients c pc) (x : α) :
    t.unplaced x + (s.clients c).unplaced.count x = s.unplaced x + pc.unplaced.count x := by
  unfold State.unplaced
  rw [h, Function.comp_update]
  exact tally_update ..

theorem unreturned_eq (h : t.clients = Function.update s.clients c pc) (x : α) :
    t.unreturned x + (s.clients c).due.count x = s.unreturned x + pc.due.count x := by
  unfold State.unreturned
  rw [h, Function.comp_update]
  exact tally_update ..

namespace ClientPc

omit [DecidableEq α] in
theorem due_of_not_succeeding (h : pc.succeeding = false) : pc.due = [] := by
  cases pc with
  | notify x placed => exact absurd h (by simp [succeeding])
  | _ => rfl

omit [DecidableEq α] in
theorem due_of_request {x : α} {p : TaskPriority} (h : pc.request = some (x, p)) : pc.due = [] := by
  cases pc with
  | notify y placed => exact absurd h (by simp [request])
  | _ => rfl

omit [DecidableEq α] in
theorem unplaced_of_request {x : α} {p : TaskPriority} (h : pc.request = some (x, p)) :
    pc.unplaced = [x] := by
  unfold unplaced
  rw [h]
  rfl

end ClientPc

/-- What was placed was taken or is queued, and was returned or is about to be; every task is queued
at its priority, and was placed at most once. -/
structure Conserved (priority : α → TaskPriority) (submitted : List α) (s : State m n α) :
    Prop where
  late : ∀ c, (s.clients c).late = false
  placed_eq : ∀ x, s.placed.count x = s.taken.count x + s.inQueues x
  submitted_eq : ∀ x, s.placed.count x = submitted.count x + s.unreturned x
  level : ∀ r, ∀ x ∈ s.queues r, r.2 = priority x
  request : ∀ c x p, (s.clients c).request = some (x, p) → p = priority x
  once : ∀ x, s.placed.count x + s.unplaced x ≤ 1

namespace Conserved

variable {priority : α → TaskPriority} {submitted : List α}

/-- One client moves; what it still has to place or to return is accounted for by the caller. -/
theorem setClient (h : Conserved priority submitted s)
    (hclients : t.clients = Function.update s.clients c pc) (hlate : pc.late = false)
    (hrequest : ∀ x p, pc.request = some (x, p) → p = priority x) :
    (∀ d, (t.clients d).late = false) ∧
      ∀ d x p, (t.clients d).request = some (x, p) → p = priority x := by
  rw [hclients]
  exact ⟨Threads.all_update (fun q : ClientPc n α => q.late = false) h.late hlate,
    Threads.all_update (fun q : ClientPc n α => ∀ x p, q.request = some (x, p) → p = priority x)
      h.request hrequest⟩

theorem still (h : Conserved priority submitted s) (hclients : t.clients = s.clients)
    (hqueues : t.queues = s.queues) (hplaced : t.placed = s.placed) (htaken : t.taken = s.taken) :
    Conserved priority submitted t := by
  refine ⟨?_, ?_, ?_, ?_, ?_, ?_⟩
  · rw [hclients]; exact h.late
  · unfold State.inQueues; rw [hqueues, hplaced, htaken]; exact h.placed_eq
  · unfold State.unreturned; rw [hclients, hplaced]; exact h.submitted_eq
  · rw [hqueues]; exact h.level
  · rw [hclients]; exact h.request
  · unfold State.unplaced; rw [hclients, hplaced]; exact h.once

/-- A worker takes the first task of a queue. -/
theorem takes (h : Conserved priority submitted s) {r : QueueRef n} {x : α} {xs : List α}
    (front : s.queues r = x :: xs) (hclients : t.clients = s.clients)
    (hqueues : t.queues = Function.update s.queues r xs) (hplaced : t.placed = s.placed)
    (htaken : t.taken = s.taken ++ [x]) : Conserved priority submitted t := by
  refine ⟨?_, ?_, ?_, ?_, ?_, ?_⟩
  · rw [hclients]; exact h.late
  · intro y
    have hsum := tally_update s.queues r xs y
    have hold := h.placed_eq y
    rw [front, ← List.singleton_append, List.count_append] at hsum
    unfold State.inQueues at hold ⊢
    rw [hplaced, htaken, hqueues, List.count_append]
    omega
  · unfold State.unreturned; rw [hclients, hplaced]; exact h.submitted_eq
  · intro q y hy
    rw [hqueues] at hy
    by_cases hq : q = r
    · subst hq
      rw [Function.update_self] at hy
      exact h.level q y (front ▸ List.mem_cons_of_mem x hy)
    · rw [Function.update_of_ne hq] at hy
      exact h.level q y hy
  · rw [hclients]; exact h.request
  · unfold State.unplaced; rw [hclients, hplaced]; exact h.once

/-- A client moves and changes no queue. -/
theorem moves (h : Conserved priority submitted s)
    (hclients : t.clients = Function.update s.clients c pc) (hqueues : t.queues = s.queues)
    (hplaced : t.placed = s.placed) (htaken : t.taken = s.taken) (hlate : pc.late = false)
    (hrequest : ∀ x p, pc.request = some (x, p) → p = priority x) {submitted' : List α}
    (hreturn : ∀ x, submitted'.count x + pc.due.count x
      = submitted.count x + (s.clients c).due.count x)
    (honce : ∀ x, s.placed.count x + s.unplaced x + pc.unplaced.count x
      ≤ 1 + (s.clients c).unplaced.count x) : Conserved priority submitted' t := by
  obtain ⟨hlate', hrequest'⟩ := h.setClient hclients hlate hrequest
  refine ⟨hlate', ?_, ?_, ?_, hrequest', ?_⟩
  · unfold State.inQueues; rw [hqueues, hplaced, htaken]; exact h.placed_eq
  · intro x
    have hold := h.submitted_eq x
    have hdue := unreturned_eq hclients x
    have hnew := hreturn x
    rw [hplaced]
    omega
  · rw [hqueues]; exact h.level
  · intro x
    have hsum := unplaced_eq hclients x
    have hold := honce x
    rw [hplaced]
    omega

/-- A client puts its task into a queue of the task's priority. -/
theorem places (h : Conserved priority submitted s) {r : QueueRef n} {x : α} {p : TaskPriority}
    (old : (s.clients c).request = some (x, p)) (level : r.2 = p)
    (hclients : t.clients = Function.update s.clients c (.notify x true))
    (hqueues : t.queues = Function.update s.queues r (s.queues r ++ [x]))
    (hplaced : t.placed = s.placed ++ [x]) (htaken : t.taken = s.taken) :
    Conserved priority submitted t := by
  obtain ⟨hlate', hrequest'⟩ := h.setClient hclients rfl fun _ _ hnone => absurd hnone (by
    simp [ClientPc.request])
  refine ⟨hlate', ?_, ?_, ?_, hrequest', ?_⟩
  · intro y
    have hsum := tally_update s.queues r (s.queues r ++ [x]) y
    have hold := h.placed_eq y
    rw [List.count_append] at hsum
    unfold State.inQueues at hold ⊢
    rw [hplaced, htaken, hqueues, List.count_append]
    omega
  · intro y
    have hold := h.submitted_eq y
    have hdue := unreturned_eq hclients y
    rw [ClientPc.due_of_request old] at hdue
    rw [hplaced, List.count_append]
    simp only [ClientPc.due, List.count_nil] at hdue
    omega
  · intro q y hy
    rw [hqueues] at hy
    by_cases hq : q = r
    · subst hq
      rw [Function.update_self] at hy
      rcases List.mem_append.mp hy with hy | hy
      · exact h.level q y hy
      · rw [List.mem_singleton.mp hy, level]
        exact h.request c x p old
    · rw [Function.update_of_ne hq] at hy
      exact h.level q y hy
  · intro y
    have hsum := unplaced_eq hclients y
    have hold := h.once y
    rw [ClientPc.unplaced_of_request old] at hsum
    rw [hplaced, List.count_append]
    simp only [ClientPc.unplaced, ClientPc.request, Option.map_none, Option.toList_none,
      List.count_nil] at hsum
    omega

end Conserved
end

namespace Observed

variable [DecidableEq τ]

/-- The invariant of a pool that is not shut down. -/
structure Sound (o : Observed m n τ) : Prop where
  running : o.pool.running = true
  conserved : Conserved Submission.priority o.submitted o.pool
  fresh : ∀ x, o.pool.placed.count x + o.pool.unplaced x ≠ 0 → x.number < o.next
  untouched : ∀ c x, (o.pool.clients c).request = some x → o.touched c = false
  refused : ∀ r ∈ o.returned, r.result = false → r.touched = false

theorem sound_start : Sound (start m n τ) := by
  have hqueues : ∀ x, (Pool.start m n (Submission τ)).inQueues x = 0 := tally_eq_zero fun _ => rfl
  have hdue : ∀ x, (Pool.start m n (Submission τ)).unreturned x = 0 := tally_eq_zero fun _ => rfl
  have hhave : ∀ x, (Pool.start m n (Submission τ)).unplaced x = 0 := tally_eq_zero fun _ => rfl
  refine ⟨rfl, ⟨fun _ => rfl, ?_, ?_, ?_, ?_, ?_⟩, ?_, fun _ _ _ => rfl, ?_⟩
  · intro x; rw [start, hqueues x]; rfl
  · intro x; rw [start, hdue x]; rfl
  · intro r x hx; exact absurd hx List.not_mem_nil
  · intro c x p hreq; exact absurd hreq (by simp [start, Pool.start, ClientPc.request])
  · intro x; rw [start, hhave x]; exact Nat.zero_le 1
  · intro x hx; exact absurd (by rw [start, hhave x]; rfl) hx
  · intro r hr; exact absurd hr List.not_mem_nil

namespace Sound

variable {o o' : Observed m n τ} {t : State m n (Submission τ)} {c : Fin m}

/-- Neither a call nor what the calls have placed has changed. -/
theorem same_calls (h : Sound o) (clients : t.clients = o.pool.clients)
    (placed : t.placed = o.pool.placed) :
    (∀ x, t.placed.count x + t.unplaced x ≠ 0 → x.number < o.next) ∧
      ∀ d x, (t.clients d).request = some x → o.touched d = false := by
  constructor
  · unfold State.unplaced
    rw [clients, placed]
    exact h.fresh
  · rw [clients]
    exact h.untouched

/-- A worker's step. -/
theorem worker (h : Sound o) (hrun : t.running = true) (he : Effect o.pool t none) :
    Sound { o with pool := t } := by
  generalize hwho : (none : Option (Fin m)) = who at he
  cases he with
  | still clients queues placed taken =>
    obtain ⟨hfresh, huntouched⟩ := h.same_calls clients placed
    exact ⟨hrun, h.conserved.still clients queues placed taken, hfresh, huntouched, h.refused⟩
  | takes front clients queues placed taken =>
    have hconserved := h.conserved.takes front clients queues placed taken
    obtain ⟨hfresh, huntouched⟩ := h.same_calls clients placed
    exact ⟨hrun, hconserved, hfresh, huntouched, h.refused⟩
  | moves | places | refuses | returns => exact absurd hwho (by simp)

/-- The queues were not changed, so the call is as untouched as before. -/
theorem observe_touched (hqueues : t.queues = o.pool.queues) :
    (o.observe c t).touched = o.touched := by
  show Function.update o.touched c (o.touched c || decide (t.queues ≠ o.pool.queues)) = o.touched
  rw [hqueues]
  simp

/-- What the step of a client leaves to be shown, when its call has not returned. -/
theorem observe_stays (h : Sound o) (hrun : t.running = true)
    (hstay : (o.pool.clients c).submitting = none ∨ t.clients c ≠ .idle)
    (hconserved : Conserved Submission.priority o.submitted t)
    (hfresh : ∀ x, t.placed.count x + t.unplaced x ≤ o.pool.placed.count x + o.pool.unplaced x)
    (huntouched : ∀ d x, (t.clients d).request = some x → (o.observe c t).touched d = false) :
    Sound (o.observe c t) := by
  have hreturned : (o.observe c t).returned = o.returned := by
    unfold observe
    dsimp only
    split
    next x hsub hidle =>
      rcases hstay with hnone | hne
      · exact absurd (hsub.symm.trans hnone) (by simp)
      · exact absurd hidle hne
    next => rfl
  refine ⟨hrun, ?_, ?_, huntouched, ?_⟩
  · unfold submitted
    rw [hreturned]
    exact hconserved
  · intro x hx
    have hle := hfresh x
    exact h.fresh x (by intro hzero; exact hx (Nat.le_zero.mp (hzero ▸ hle)))
  · rw [hreturned]
    exact h.refused

/-- A submission returns: the client is idle, and the call is on record. -/
theorem observe_returns (h : Sound o) (hrun : t.running = true) {x : Submission τ}
    (hsub : (o.pool.clients c).submitting = some x)
    (hclients : t.clients = Function.update o.pool.clients c .idle)
    (hqueues : t.queues = o.pool.queues) (hplaced : t.placed = o.pool.placed)
    (htaken : t.taken = o.pool.taken)
    (hdue : (o.pool.clients c).due = if (o.pool.clients c).succeeding then [x] else [])
    (hrefused : (o.pool.clients c).succeeding = false → o.touched c = false) :
    Sound (o.observe c t) := by
  have htouched := observe_touched (c := c) hqueues
  have hreturned : (o.observe c t).returned = o.returned ++
      [{ submission := x, result := (o.pool.clients c).succeeding, touched := o.touched c }] := by
    unfold observe
    dsimp only
    rw [hsub, hclients, Function.update_self, hqueues]
    simp
  have hsubmitted : (o.observe c t).submitted = o.submitted ++
      if (o.pool.clients c).succeeding then [x] else [] := by
    unfold submitted
    rw [hreturned]
    cases (o.pool.clients c).succeeding <;> simp
  refine ⟨hrun, ?_, ?_, ?_, ?_⟩
  · rw [hsubmitted]
    refine h.conserved.moves hclients hqueues hplaced htaken rfl (fun _ _ hnone => ?_) ?_ ?_
    · exact absurd hnone (by simp [ClientPc.request])
    · intro y
      rw [hdue, List.count_append]
      simp [ClientPc.due]
    · intro y
      have hold := h.conserved.once y
      simp only [ClientPc.unplaced, ClientPc.request, Option.map_none, Option.toList_none,
        List.count_nil]
      omega
  · intro y hy
    refine h.fresh y ?_
    have hsum := unplaced_eq hclients y
    simp only [ClientPc.unplaced, ClientPc.request, Option.map_none, Option.toList_none,
      List.count_nil] at hsum
    have hy' : o.pool.placed.count y + t.unplaced y ≠ 0 := by
      rw [← hplaced]
      exact hy
    unfold State.unplaced at hsum hy' ⊢
    omega
  · intro d y hd
    have hd' : (t.clients d).request = some y := hd
    rw [hclients] at hd'
    rw [htouched]
    rcases Threads.update_cases (fun q : ClientPc n (Submission τ) => q.request = some y) hd'
      with hold | ⟨_, hnew⟩
    · exact h.untouched d y hold
    · exact absurd hnew (by simp [ClientPc.request])
  · intro r hr hresult
    rw [hreturned] at hr
    rcases List.mem_append.mp hr with hr | hr
    · exact h.refused r hr hresult
    · rw [List.mem_singleton.mp hr] at hresult ⊢
      exact hrefused hresult

/-- A client's step. -/
theorem client (h : Sound o) (hrun : t.running = true) (he : Effect o.pool t (some c)) :
    Sound (o.observe c t) := by
  generalize hwho : some c = who at he
  cases he with
  | still | takes => exact absurd hwho (by simp)
  | @moves c' pc request old new late idle clients queues placed taken =>
    obtain rfl := Option.some.inj hwho
    have hunplaced : pc.unplaced = (o.pool.clients c).unplaced := by
      unfold ClientPc.unplaced
      rw [request]
    refine h.observe_stays hrun ?_ ?_ ?_ ?_
    · by_cases hpc : pc = .idle
      · left
        have hnone := idle hpc
        revert hnone old
        cases o.pool.clients c <;> simp [ClientPc.request, ClientPc.succeeding,
          ClientPc.submitting]
      · right
        rw [clients, Function.update_self]
        exact hpc
    · refine h.conserved.moves clients queues placed taken late ?_ ?_ ?_
      · intro x p hreq
        exact h.conserved.request c x p (request ▸ hreq)
      · intro x
        rw [ClientPc.due_of_not_succeeding old, ClientPc.due_of_not_succeeding new]
      · intro x
        rw [hunplaced]
        have hold := h.conserved.once x
        omega
    · intro x
      have hsum := unplaced_eq clients x
      rw [hunplaced] at hsum
      rw [placed]
      omega
    · intro d x hd
      rw [observe_touched queues]
      rw [clients] at hd
      rcases Threads.update_cases (fun q : ClientPc n (Submission τ) => q.request = some x) hd
        with hold | ⟨rfl, hnew⟩
      · exact h.untouched d x hold
      · exact h.untouched _ x (request ▸ hnew)
  | @places c' x p r old level clients queues placed taken =>
    obtain rfl := Option.some.inj hwho
    refine h.observe_stays hrun ?_ (h.conserved.places old level clients queues placed taken) ?_ ?_
    · right
      rw [clients, Function.update_self]
      simp
    · intro y
      have hsum := unplaced_eq clients y
      rw [ClientPc.unplaced_of_request old] at hsum
      rw [placed, List.count_append]
      simp only [ClientPc.unplaced, ClientPc.request, Option.map_none, Option.toList_none,
        List.count_nil] at hsum
      omega
    · intro d y hd
      rw [clients] at hd
      by_cases hdc : d = c
      · subst hdc
        rw [Function.update_self] at hd
        exact absurd hd (by simp [ClientPc.request])
      · rw [Function.update_of_ne hdc] at hd
        show Function.update o.touched c _ d = false
        rw [Function.update_of_ne hdc]
        exact h.untouched d y hd
  | @refuses c' x p old clients queues placed taken =>
    obtain rfl := Option.some.inj hwho
    have hsucceed : (o.pool.clients c).succeeding = false := by
      revert old
      cases o.pool.clients c <;> simp [ClientPc.request, ClientPc.succeeding]
    have hsub : (o.pool.clients c).submitting = some x := by
      revert old
      cases o.pool.clients c <;> simp +contextual [ClientPc.request, ClientPc.submitting]
    refine h.observe_returns hrun hsub clients queues placed taken ?_ ?_
    · rw [hsucceed, ClientPc.due_of_request old]
      rfl
    · intro _
      exact h.untouched c _ old
  | @returns c' x old clients queues placed taken =>
    obtain rfl := Option.some.inj hwho
    refine h.observe_returns hrun (by rw [old]; rfl) clients queues placed taken ?_ ?_
    · rw [old]
      rfl
    · intro hfalse
      rw [old] at hfalse
      exact absurd hfalse (by simp [ClientPc.succeeding])

/-- A submission begins. Its number is new, so nothing of it is anywhere yet. -/
theorem begins (h : Sound o) {kind : SubmitKind} {x : Submission τ} (hnumber : x.number = o.next)
    (hidle : o.pool.clients c = .idle) (hrun : t.running = true)
    (hclients : t.clients = Function.update o.pool.clients c (.testRunning kind x x.priority))
    (hqueues : t.queues = o.pool.queues) (hplaced : t.placed = o.pool.placed)
    (htaken : t.taken = o.pool.taken) :
    Sound { o with pool := t, next := o.next + 1, touched := Function.update o.touched c false } := by
  have hnone : o.pool.placed.count x + o.pool.unplaced x = 0 := by
    by_contra hne
    have hlt := h.fresh x hne
    omega
  have hunplaced : ∀ y, t.unplaced y = o.pool.unplaced y + [x].count y := by
    intro y
    have hsum := unplaced_eq hclients y
    rw [hidle] at hsum
    simpa [ClientPc.unplaced, ClientPc.request] using hsum
  refine ⟨hrun, ?_, ?_, ?_, h.refused⟩
  · refine h.conserved.moves hclients hqueues hplaced htaken rfl ?_ ?_ ?_
    · intro y r hreq
      simp only [ClientPc.request, Option.some.injEq, Prod.mk.injEq] at hreq
      rw [← hreq.1, ← hreq.2]
    · intro y
      rw [hidle]
      rfl
    · intro y
      have hold := h.conserved.once y
      rw [hidle]
      by_cases hy : y = x
      · subst hy
        simp [ClientPc.unplaced, ClientPc.request, hnone]
      · simp [ClientPc.unplaced, ClientPc.request, Ne.symm hy]
        omega
  · intro y hy
    show y.number < o.next + 1
    by_cases hyx : y = x
    · rw [hyx, hnumber]
      exact Nat.lt_succ_self _
    · refine Nat.lt_succ_of_lt (h.fresh y ?_)
      have hy' : t.placed.count y + t.unplaced y ≠ 0 := hy
      have hzero : [x].count y = 0 := List.count_eq_zero.mpr (by simpa using hyx)
      rw [hplaced, hunplaced y, hzero] at hy'
      exact hy'
  · intro d y hd
    by_cases hdc : d = c
    · subst hdc
      exact Function.update_self ..
    · show Function.update o.touched c false d = false
      rw [Function.update_of_ne hdc]
      have hd' : (t.clients d).request = some y := hd
      rw [hclients, Function.update_of_ne hdc] at hd'
      exact h.untouched d y hd'

theorem submit (h : Sound o) {kind : SubmitKind} {task : τ} {p : TaskPriority}
    {q : Option TaskPriority}
    (hstep : step o (.submit c kind task p q) = some o') : Sound o' := by
  simp only [step, Option.map_eq_some_iff] at hstep
  obtain ⟨t, ht, rfl⟩ := hstep
  simp only [Pool.step] at ht
  split at ht
  next hidle =>
    obtain rfl := Option.some.inj ht
    cases kind with
    | submit => exact h.begins rfl hidle h.running rfl rfl rfl rfl
    | trySubmit => exact h.begins rfl hidle h.running rfl rfl rfl rfl
  next => exact absurd ht (by simp)

/-- A pool that nobody shuts down keeps running. -/
theorem stays_running (h : Sound o) {a : Action m n (Submission τ)}
    (ht : Pool.step o.pool a = some t) : t.running = true := by
  have hrun := h.running
  cases Move.of_step ht with
  | @stopped c old =>
    have hlate := h.conserved.late c
    rw [old] at hlate
    exact absurd hlate (by simp [ClientPc.late, ClientPc.stopping])
  | notifiedNobody old nobody => exact (State.accept_running ..).trans hrun
  | notified old blocked => exact (State.accept_running ..).trans hrun
  | _ => exact hrun

end Sound

theorem sound_step : Preserved (step (m := m) (n := n) (τ := τ)) free Sound := by
  intro o e o' h _ hstep
  cases e with
  | submit c kind task p q => exact h.submit hstep
  | pause c =>
    obtain ⟨t, ht, rfl⟩ := Option.map_eq_some_iff.mp hstep
    exact h.client (h.stays_running ht) (.of_call rfl rfl rfl ht)
  | resume c =>
    obtain ⟨t, ht, rfl⟩ := Option.map_eq_some_iff.mp hstep
    exact h.client (h.stays_running ht) (.of_call rfl rfl rfl ht)
  | client c =>
    obtain ⟨t, ht, rfl⟩ := Option.map_eq_some_iff.mp hstep
    exact h.client (h.stays_running ht) (.of_clientStep h.running (h.conserved.late c) ht)
  | wake c w =>
    obtain ⟨t, ht, rfl⟩ := Option.map_eq_some_iff.mp hstep
    exact h.client (h.stays_running ht) (.of_wake (h.conserved.late c) ht)
  | timeOut c =>
    obtain ⟨t, ht, rfl⟩ := Option.map_eq_some_iff.mp hstep
    exact h.client (h.stays_running ht) (.of_timeOut ht)
  | worker w =>
    obtain ⟨t, ht, rfl⟩ := Option.map_eq_some_iff.mp hstep
    exact h.worker (h.stays_running ht) (.of_workerStep ht)
  | spurious w =>
    obtain ⟨t, ht, rfl⟩ := Option.map_eq_some_iff.mp hstep
    exact h.worker (h.stays_running ht) (.of_spurious ht)

/-- With no submission in progress none is placed and not returned. -/
theorem unreturned_eq_zero {o : Observed m n τ} (h : o.NoneSubmitting) (x : Submission τ) :
    o.pool.unreturned x = 0 := by
  refine tally_eq_zero (fun c => ?_) x
  have hc := h c
  show (o.pool.clients c).due = []
  revert hc
  cases o.pool.clients c <;> simp [ClientPc.submitting, ClientPc.due]

/-- **No submission is lost, and none is taken twice.** In every state of a pool that nobody shuts
down: with no submission in progress the tasks submitted are those taken together with those queued;
a task submitted was taken once or is in one queue once, and then at its priority; a `try_submit`
that returned false has changed no queue; and `pending_tasks` is the number of tasks queued. -/
theorem submissions_conserved {es : List (Event m n τ)} {o : Observed m n τ}
    (run : Run step free (start m n τ) es o) :
    (o.NoneSubmitting →
      (o.submitted : Multiset (Submission τ)) = (o.pool.taken : Multiset _) + o.queued) ∧
    (∀ x ∈ o.submitted, o.pool.taken.count x + ∑ r, (o.pool.queues r).count x = 1 ∧
      ∀ r, x ∈ o.pool.queues r → r.2 = x.priority) ∧
    (∀ r ∈ o.returned, r.result = false → r.touched = false) ∧
    pendingTasks o.pool.queues = o.queued.card := by
  have h := run.invariant sound_step sound_start
  refine ⟨fun hnone => ?_, fun x hx => ⟨?_, fun r hr => h.conserved.level r x hr⟩, h.refused, ?_⟩
  · refine Multiset.ext.mpr fun x => ?_
    have hplaced := h.conserved.placed_eq x
    have hsubmitted := h.conserved.submitted_eq x
    rw [unreturned_eq_zero hnone x] at hsubmitted
    rw [Multiset.count_add, Multiset.coe_count, Multiset.coe_count, queued, Multiset.count_sum']
    simp only [Multiset.coe_count]
    unfold State.inQueues tally at hplaced
    omega
  · have hplaced := h.conserved.placed_eq x
    have hsubmitted := h.conserved.submitted_eq x
    have honce := h.conserved.once x
    have hpos := List.count_pos_iff.mpr hx
    unfold State.inQueues tally at hplaced
    omega
  · rw [pendingTasks_eq, queued, Multiset.card_sum]
    rfl

/-- `try_submit` of task 7 as a critical one, and `submit` of task 8 with its own priority; then the
worker takes the critical one. -/
def observedRun : List (Event 1 1 Nat) :=
  .submit 0 .trySubmit 7 .normal (some .critical) :: List.replicate 4 (.client 0) ++
  .submit 0 .submit 8 .low none :: List.replicate 4 (.client 0) ++ List.replicate 3 (.worker 0)

theorem submissions_conserved_observedRun :
    ∃ o, Run step free (start 1 1 Nat) observedRun o ∧ o.NoneSubmitting ∧
      o.submitted.map Submission.task = [7, 8] ∧ o.pool.taken.map Submission.task = [7] ∧
      (o.submitted : Multiset (Submission Nat)) = (o.pool.taken : Multiset _) + o.queued := by
  have hrun : Run step free (start 1 1 Nat) observedRun _ := Run.of_isSome (by decide +kernel)
  have hnone : NoneSubmitting ((exec step free (start 1 1 Nat) observedRun).get
      (by decide +kernel)) := by
    intro c
    revert c
    decide +kernel
  exact ⟨_, hrun, hnone, by decide +kernel, by decide +kernel,
    (submissions_conserved hrun).1 hnone⟩

end Observed

end Pool
end NexusTask
