import Mathlib.Algebra.Order.BigOperators.Group.Finset
import Mathlib.Algebra.Order.Group.Multiset
import Mathlib.Data.Fintype.Option
import Mathlib.Data.Fintype.Prod
import Mathlib.Tactic.Abel
import NexusTask.Lib.Linearizable
import NexusTask.Pool.Conservation

/-!
# The pool as a bag

To those who use it a pool that is not shut down is a bag of tasks with their priorities: `submit`
puts one in, a worker takes any out. Between the call of `submit` and its return a task can go
through a local queue, the global one or a wait for room there; it is in the bag from the moment it
is in some queue. A worker looks into one queue after the other, and what it takes it takes at one
instant, so its whole search can be seen as that instant.
-/

set_option autoImplicit false

namespace NexusTask
namespace Pool

open Transition Linearizable

variable {m n : Nat} {α : Type}

inductive Op (α : Type)
  | put (kind : SubmitKind) (task : α) (priority : TaskPriority)
  | take

inductive Reply (α : Type)
  | accepted | refused
  | taken (task : α)

/-- The bag as an atomic object. Only `try_submit` refuses, and only when as many tasks of that
priority as the global queue has room for are in the bag. -/
inductive Serves : Multiset (α × TaskPriority) → Op α → Reply α → Multiset (α × TaskPriority) → Prop
  | accepts {b : Multiset (α × TaskPriority)} {kind : SubmitKind} {x : α} {p : TaskPriority} :
      Serves b (.put kind x p) .accepted ((x, p) ::ₘ b)
  | refuses {b : Multiset (α × TaskPriority)} {x : α} {p : TaskPriority}
      (full : room (n := 0) (none, p) ≤ Multiset.card (b.filter fun y => y.2 = p)) :
      Serves b (.put .trySubmit x p) .refused b
  | hands {b : Multiset (α × TaskPriority)} {x : α} {p : TaskPriority} :
      Serves ((x, p) ::ₘ b) .take (.taken x) b

/-! ## The bag a state stands for -/

/-- The tasks of one queue. -/
def shelf (q : Queues n α) (r : QueueRef n) : Multiset (α × TaskPriority) :=
  ((q r).map fun x => (x, r.2) : List (α × TaskPriority))

def bag (q : Queues n α) : Multiset (α × TaskPriority) := ∑ r, shelf q r

/-- One queue is changed. -/
theorem bag_update (q : Queues n α) (r : QueueRef n) (l : List α) :
    bag (Function.update q r l) + shelf q r
      = bag q + ((l.map fun x => (x, r.2) : List (α × TaskPriority)) : Multiset _) := by
  have hrest : ∑ r' ∈ Finset.univ.erase r, shelf (Function.update q r l) r'
      = ∑ r' ∈ Finset.univ.erase r, shelf q r' := by
    refine Finset.sum_congr rfl fun r' hr' => ?_
    unfold shelf
    rw [Function.update_of_ne (Finset.ne_of_mem_erase hr')]
  unfold bag
  rw [← Finset.add_sum_erase _ _ (Finset.mem_univ r), ← Finset.add_sum_erase _ _ (Finset.mem_univ r),
    hrest, shelf, Function.update_self]
  abel

theorem bag_append (q : Queues n α) (r : QueueRef n) (x : α) :
    bag (Function.update q r (q r ++ [x])) = (x, r.2) ::ₘ bag q := by
  have hupdate := bag_update q r (q r ++ [x])
  rw [List.map_append, ← Multiset.coe_add] at hupdate
  refine add_right_cancel (b := shelf q r) (hupdate.trans ?_)
  rw [← Multiset.singleton_add]
  show bag q + (shelf q r + {(x, r.2)}) = _
  abel

theorem bag_front {q : Queues n α} {r : QueueRef n} {x : α} {xs : List α} (h : q r = x :: xs) :
    bag q = (x, r.2) ::ₘ bag (Function.update q r xs) := by
  have hupdate := bag_update q r xs
  have hshelf : shelf q r
      = {(x, r.2)} + ((xs.map fun x => (x, r.2) : List (α × TaskPriority)) : Multiset _) := by
    unfold shelf
    rw [h]
    rfl
  rw [hshelf, ← add_assoc] at hupdate
  rw [← Multiset.singleton_add, add_comm]
  exact (add_right_cancel hupdate).symm

/-- What is in one queue is in the bag at the queue's priority. -/
theorem length_le_card (q : Queues n α) (r : QueueRef n) :
    (q r).length ≤ Multiset.card ((bag q).filter fun y => y.2 = r.2) := by
  have hshelf : (shelf q r).filter (fun y => y.2 = r.2) = shelf q r := by
    refine Multiset.filter_eq_self.mpr fun y hy => ?_
    obtain ⟨x, _, rfl⟩ := List.mem_map.mp hy
    rfl
  have hle : shelf q r ≤ bag q :=
    Finset.single_le_sum (f := shelf q) (fun _ _ => Multiset.zero_le _) (Finset.mem_univ r)
  have hcard := Multiset.card_le_card (Multiset.filter_le_filter (fun y => y.2 = r.2) hle)
  rw [hshelf] at hcard
  simpa [shelf] using hcard

/-! ## The threads as users of the bag -/

/-- Where a client is with its submission. -/
def ClientPc.status : ClientPc n α → Status (Op α) (Reply α)
  | .testRunning kind x p | .pickWorker kind x p | .tryLocal kind x p _ | .tryGlobal kind x p =>
      .called (.put kind x p)
  | .waitEnqueue x p | .recheck x p => .called (.put .submit x p)
  | .notify _ _ => .answered .accepted
  | _ => .idle

/-- The configuration of the bag a state stands for. A worker takes a task in one step. -/
def atomic (s : State m n α) :
    Configuration (Fin m ⊕ Fin n) (Multiset (α × TaskPriority)) (Op α) (Reply α) where
  object := bag s.queues
  status := Sum.elim (fun c => (s.clients c).status) fun _ => .idle

/-- What a submission that comes from `pc` to `pc'` returns there, if it returns. -/
def ClientPc.replies : ClientPc n α → ClientPc n α → List (Reply α)
  | .notify _ _, .idle => [.accepted]
  | .tryGlobal .trySubmit _ _, .idle => [.refused]
  | _, _ => []

/-- What a worker that comes from `pc` to `pc'` has taken. -/
def WorkerPc.takes : WorkerPc n α → WorkerPc n α → List α
  | .scan _, .execute x => [x]
  | _, _ => []

/-- What is seen of a step. -/
def observe (s : State m n α) (a : Action m n α) :
    List (Linearizable.Event (Fin m ⊕ Fin n) (Op α) (Reply α)) :=
  match a, step s a with
  | .call c (.submit x p), some _ => [.call (.inl c) (.put .submit x p)]
  | .call c (.trySubmit x p), some _ => [.call (.inl c) (.put .trySubmit x p)]
  | .client c, some t | .wake c _, some t =>
      ((s.clients c).replies (t.clients c)).map (.reply (.inl c))
  | .worker w, some t => ((s.workers w).takes (t.workers w)).flatMap fun x =>
      [.call (.inr w) .take, .reply (.inr w) (.taken x)]
  | _, _ => []

/-- The condition on a step: the pool is not shut down. -/
def LeftOpen (_ : State m n α) : Action m n α → Prop
  | .call _ .shutdown => False
  | _ => True

instance (s : State m n α) : (a : Action m n α) → Decidable (LeftOpen s a)
  | .call _ .shutdown => .isFalse id
  | .call _ (.submit _ _) | .call _ (.trySubmit _ _) | .call _ .pause | .call _ .resume
  | .client _ | .wake _ _ | .timeOut _ | .worker _ | .spurious _ => .isTrue trivial

/-! ## Step by step -/

/-- A pool that is not shut down is running, and no client is at a place that is reached only after
`shutdown`. -/
structure Open (s : State m n α) : Prop where
  running : s.running = true
  late : ∀ c, (s.clients c).late = false

section
variable {s t : State m n α} {c : Fin m} {w : Fin n}

theorem observe_client {a : Action m n α} (ha : a = .client c ∨ ∃ w, a = .wake c w)
    (h : step s a = some t) :
    observe s a = ((s.clients c).replies (t.clients c)).map (.reply (.inl c)) := by
  rcases ha with rfl | ⟨w, rfl⟩ <;> simp only [observe, h]

theorem observe_worker (h : step s (.worker w) = some t) :
    observe s (.worker w) = ((s.workers w).takes (t.workers w)).flatMap fun x =>
      [.call (.inr w) .take, .reply (.inr w) (.taken x)] := by
  simp only [observe, h]

/-- One client has moved. -/
theorem atomic_client {pc : ClientPc n α} (hclients : t.clients = Function.update s.clients c pc) :
    atomic t = { atomic s with object := bag t.queues }.goto (.inl c) pc.status := by
  unfold atomic Configuration.goto
  congr 1
  show Sum.elim _ _ = Function.update (Sum.elim _ _) _ _
  rw [Sum.update_elim_inl, hclients]
  congr 1
  exact Function.comp_update ClientPc.status ..

/-- No client has moved, and the bag is what it was. -/
theorem atomic_same (hclients : t.clients = s.clients) (hqueues : t.queues = s.queues) :
    atomic t = atomic s := by
  unfold atomic
  rw [hclients, hqueues]

/-- What a client's step comes to. -/
theorem client_steps {a : Action m n α} {pc : ClientPc n α}
    (ha : a = .client c ∨ ∃ w, a = .wake c w) (h : step s a = some t)
    (hclients : t.clients = Function.update s.clients c pc)
    (hsteps : Steps Serves (atomic s) (((s.clients c).replies pc).map (.reply (.inl c)))
      ({ atomic s with object := bag t.queues }.goto (.inl c) pc.status)) :
    Steps Serves (atomic s) (observe s a) (atomic t) := by
  rw [observe_client ha h, atomic_client hclients, hclients, Function.update_self]
  exact hsteps

/-- A step that is nobody's business but the client's. -/
theorem quiet_steps {old pc : ClientPc n α} (hpc : s.clients c = old)
    (h : step s (.client c) = some t) (hclients : t.clients = Function.update s.clients c pc)
    (hqueues : t.queues = s.queues) (hreplies : old.replies pc = [])
    (hstatus : old.status = pc.status) :
    Steps Serves (atomic s) (observe s (.client c)) (atomic t) := by
  subst hpc
  refine client_steps (.inl rfl) h hclients ?_
  rw [hreplies, hqueues]
  exact .stay hstatus

/-- A submission returns. -/
theorem notify_steps {a : Action m n α} {x : α} {placed : Bool}
    (hpc : s.clients c = .notify x placed) (ha : a = .client c ∨ ∃ w, a = .wake c w)
    (h : step s a = some t) (hclients : t.clients = Function.update s.clients c .idle)
    (hqueues : t.queues = s.queues) :
    Steps Serves (atomic s) (observe s a) (atomic t) := by
  have hst : (atomic s).status (.inl c) = .answered .accepted := congrArg ClientPc.status hpc
  refine client_steps ha h hclients ?_
  rw [hpc, hqueues]
  exact .one_reply hst

/-- One try to put a task into a queue. -/
theorem place_steps {old full : ClientPc n α} {kind : SubmitKind} {x : α} {p : TaskPriority}
    {r : QueueRef n} (hpc : s.clients c = old) (h : step s (.client c) = some t)
    (ht : t = s.place c r x full) (hstatus : old.status = .called (.put kind x p))
    (hlevel : r.2 = p) (hreplies : old.replies (.notify x true) = [])
    (hfull : room r ≤ (s.queues r).length → t = s.setClient c full →
      Steps Serves (atomic s) (observe s (.client c)) (atomic t)) :
    Steps Serves (atomic s) (observe s (.client c)) (atomic t) := by
  subst hpc
  unfold State.place tryEnqueue at ht
  split at ht
  next q hq =>
    split at hq
    next =>
      obtain rfl := Option.some.inj hq
      have hclients : t.clients = Function.update s.clients c (.notify x true) := by
        rw [ht]
        rfl
      have hqueues : t.queues = Function.update s.queues r (s.queues r ++ [x]) := by
        rw [ht]
        rfl
      refine client_steps (.inl rfl) h hclients ?_
      rw [hreplies, hqueues, bag_append, hlevel]
      exact .one_effect hstatus .accepts
    next => exact absurd hq (by simp)
  next hq =>
    split at hq
    next => exact absurd hq (by simp)
    next hroom => exact hfull (Nat.le_of_not_lt hroom) ht

/-- Every step of a client does what the bag can do between the two configurations. -/
theorem refines_client (ho : Open s) (h : step s (.client c) = some t) :
    Steps Serves (atomic s) (observe s (.client c)) (atomic t) := by
  have hlate := ho.late c
  have hstep : clientStep s c = some t := h
  cases hpc : s.clients c with
  | idle => exact absurd hstep (by simp [clientStep, hpc])
  | testRunning kind x p =>
    simp only [clientStep, hpc, ho.running, if_true] at hstep
    obtain rfl := Option.some.inj hstep
    exact quiet_steps hpc h rfl rfl rfl rfl
  | pickWorker kind x p =>
    simp only [clientStep, hpc] at hstep
    split at hstep
    · obtain rfl := Option.some.inj hstep
      exact quiet_steps hpc h rfl rfl rfl rfl
    · exact absurd hstep (by simp)
  | tryLocal kind x p target =>
    simp only [clientStep, hpc] at hstep
    refine place_steps hpc h (Option.some.inj hstep).symm rfl rfl rfl ?_
    intro _ ht
    subst ht
    exact quiet_steps hpc h rfl rfl rfl rfl
  | tryGlobal kind x p =>
    simp only [clientStep, hpc] at hstep
    cases kind with
    | submit =>
      refine place_steps hpc h (Option.some.inj hstep).symm rfl rfl rfl ?_
      intro _ ht
      subst ht
      exact quiet_steps hpc h rfl rfl rfl rfl
    | trySubmit =>
      refine place_steps hpc h (Option.some.inj hstep).symm rfl rfl rfl ?_
      intro hroom ht
      subst ht
      refine client_steps (.inl rfl) h rfl ?_
      rw [hpc]
      have hst : (atomic s).status (.inl c) = .called (.put .trySubmit x p) :=
        congrArg ClientPc.status hpc
      exact .effect_reply hst (.refuses (Nat.le_trans hroom (length_le_card s.queues (none, p))))
  | waitEnqueue x p =>
    simp only [clientStep, hpc] at hstep
    refine place_steps hpc h (Option.some.inj hstep).symm rfl rfl rfl ?_
    intro _ ht
    subst ht
    exact quiet_steps hpc h rfl rfl rfl rfl
  | recheck x p =>
    simp only [clientStep, hpc, ho.running, if_true] at hstep
    obtain rfl := Option.some.inj hstep
    exact quiet_steps hpc h rfl rfl rfl rfl
  | notify x placed =>
    simp only [clientStep, hpc] at hstep
    split at hstep
    · obtain rfl := Option.some.inj hstep
      refine notify_steps hpc (.inl rfl) h ?_ ?_
      · show Function.update (s.accept x).clients c _ = _
        rw [State.accept_clients]
      · exact State.accept_queues x
    · exact absurd hstep (by simp)
  | pauseStore =>
    simp only [clientStep, hpc] at hstep
    obtain rfl := Option.some.inj hstep
    exact quiet_steps hpc h rfl rfl rfl rfl
  | resumeStore =>
    simp only [clientStep, hpc] at hstep
    obtain rfl := Option.some.inj hstep
    exact quiet_steps hpc h rfl rfl rfl rfl
  | resumeNotify =>
    simp only [clientStep, hpc] at hstep
    obtain rfl := Option.some.inj hstep
    exact quiet_steps hpc h rfl rfl rfl rfl
  | shutdownStore | shutdownNotify | join =>
    rw [hpc] at hlate
    exact absurd hlate (by simp [ClientPc.late, ClientPc.stopping])

/-- A worker takes a task, or does what the bag has no part in. -/
theorem refines_worker (h : step s (.worker w) = some t) :
    Steps Serves (atomic s) (observe s (.worker w)) (atomic t) := by
  have hstep : workerStep s w = some t := h
  have hsearch : ∀ {pc : WorkerPc n α}, t.workers = Function.update s.workers w pc →
      (s.workers w).takes pc = [] → t.clients = s.clients → t.queues = s.queues →
      Steps Serves (atomic s) (observe s (.worker w)) (atomic t) := by
    intro pc hworkers htakes hclients hqueues
    rw [observe_worker h, hworkers, Function.update_self, htakes, atomic_same hclients hqueues]
    exact .nil
  cases hpc : s.workers w with
  | scan rest =>
    cases rest with
    | nil =>
      simp only [workerStep, hpc] at hstep
      obtain rfl := Option.some.inj hstep
      exact hsearch rfl (by rw [hpc]; rfl) rfl rfl
    | cons r rest =>
      simp only [workerStep, hpc] at hstep
      split at hstep
      next =>
        obtain rfl := Option.some.inj hstep
        exact hsearch rfl (by rw [hpc]; rfl) rfl rfl
      next x xs hfront =>
        obtain rfl := Option.some.inj hstep
        rw [observe_worker h]
        simp only [State.setWorker, Function.update_self, hpc]
        have hbag : (atomic s).object = _ := bag_front hfront
        exact .at_once rfl (hbag ▸ .hands)
  | lock wait =>
    simp only [workerStep, hpc] at hstep
    split at hstep
    next =>
      obtain rfl := Option.some.inj hstep
      exact hsearch rfl (by rw [hpc]; rfl) rfl rfl
    next => exact absurd hstep (by simp)
  | test wait =>
    simp only [workerStep, hpc] at hstep
    split at hstep
    · obtain rfl := Option.some.inj hstep
      exact hsearch rfl (by rw [hpc]; rfl) rfl rfl
    · obtain rfl := Option.some.inj hstep
      exact hsearch rfl (by rw [hpc]; rfl) rfl rfl
  | testRunning | testPaused | block wait | execute x =>
    simp only [workerStep, hpc] at hstep
    obtain rfl := Option.some.inj hstep
    exact hsearch rfl (by rw [hpc]; rfl) rfl rfl
  | blocked | exited => exact absurd hstep (by simp [workerStep, hpc])

/-- A call that is not `shutdown`. -/
theorem refines_call {op : Call α} (hop : op ≠ .shutdown) (h : step s (.call c op) = some t) :
    Steps Serves (atomic s) (observe s (.call c op)) (atomic t) := by
  have hstep := h
  simp only [step] at hstep
  split at hstep
  next hpc =>
    have hidle : (atomic s).status (.inl c) = .idle := congrArg ClientPc.status hpc
    have ht := Option.some.inj hstep
    have hclients : t.clients = Function.update s.clients c op.entry := by rw [← ht]; rfl
    have hqueues : t.queues = s.queues := by rw [← ht]; rfl
    rw [atomic_client hclients, hqueues]
    cases op with
    | submit x p =>
      simp only [observe, h]
      exact .one_call hidle
    | trySubmit x p =>
      simp only [observe, h]
      exact .one_call hidle
    | pause | resume => exact .stay hidle
    | shutdown => exact absurd rfl hop
  next => exact absurd hstep (by simp)

theorem refines_wake (h : step s (.wake c w) = some t) :
    Steps Serves (atomic s) (observe s (.wake c w)) (atomic t) := by
  have hstep := h
  simp only [step] at hstep
  split at hstep
  next x placed k hpc hblocked =>
    have ht := Option.some.inj hstep
    refine notify_steps hpc (.inr ⟨w, rfl⟩) h ?_ ?_
    · rw [← ht]
      show Function.update (s.accept x).clients c _ = _
      rw [State.accept_clients]
    · rw [← ht]
      exact State.accept_queues x
  next => exact absurd hstep (by simp)

theorem refines_timeOut (h : step s (.timeOut c) = some t) :
    Steps Serves (atomic s) (observe s (.timeOut c)) (atomic t) := by
  have hstep := h
  simp only [step] at hstep
  split at hstep
  next x p hpc =>
    have ht := Option.some.inj hstep
    have hclients : t.clients = Function.update s.clients c (.recheck x p) := by rw [← ht]; rfl
    have hqueues : t.queues = s.queues := by rw [← ht]; rfl
    have hsame : (atomic s).status (.inl c) = .called (.put .submit x p) :=
      congrArg ClientPc.status hpc
    rw [atomic_client hclients, hqueues]
    simp only [observe]
    exact .stay hsame
  next => exact absurd hstep (by simp)

theorem refines_spurious (h : step s (.spurious w) = some t) :
    Steps Serves (atomic s) (observe s (.spurious w)) (atomic t) := by
  have hstep := h
  simp only [step] at hstep
  split at hstep
  next k hpc =>
    have ht := Option.some.inj hstep
    have hsame : atomic t = atomic s := atomic_same (by rw [← ht]; rfl) (by rw [← ht]; rfl)
    rw [hsame]
    simp only [observe]
    exact .nil
  next => exact absurd hstep (by simp)

/-- No step but `shutdown` closes the pool. -/
theorem Open.late_step (ho : Open s) {who : Option (Fin m)} (he : Effect s t who) (d : Fin m) :
    (t.clients d).late = false := by
  have hset : ∀ {c : Fin m} {pc : ClientPc n α}, t.clients = Function.update s.clients c pc →
      pc.late = false → (t.clients d).late = false := by
    intro c pc hclients hpc
    rw [hclients]
    exact Threads.all_update (fun q : ClientPc n α => q.late = false) ho.late hpc d
  cases he with
  | still clients => rw [clients]; exact ho.late d
  | takes front clients => rw [clients]; exact ho.late d
  | moves request old new late idle clients => exact hset clients late
  | places old level clients => exact hset clients rfl
  | refuses old clients => exact hset clients rfl
  | returns old clients => exact hset clients rfl

theorem Open.running_step (ho : Open s) {a : Action m n α} (h : step s a = some t) :
    t.running = true := by
  have hrun := ho.running
  cases Move.of_step h with
  | @stopped c old =>
    have hlate := ho.late c
    rw [old] at hlate
    exact absurd hlate (by simp [ClientPc.late, ClientPc.stopping])
  | notifiedNobody old nobody => exact (State.accept_running ..).trans hrun
  | notified old blocked => exact (State.accept_running ..).trans hrun
  | _ => exact hrun

end

theorem open_start : Open (start m n α) := ⟨rfl, fun _ => rfl⟩

theorem open_step : Preserved (step (m := m) (n := n) (α := α)) LeftOpen Open := by
  intro s a t ho hok h
  refine ⟨ho.running_step h, ?_⟩
  cases a with
  | call c op =>
    have hclients : t.clients = Function.update s.clients c op.entry := by
      simp only [step] at h
      split at h
      next =>
        obtain rfl := Option.some.inj h
        rfl
      next => exact absurd h (by simp)
    have hentry : (op.entry : ClientPc n α).late = false := by
      cases op with
      | shutdown => exact hok.elim
      | _ => rfl
    rw [hclients]
    exact Threads.all_update (fun q : ClientPc n α => q.late = false) ho.late hentry
  | client c => exact ho.late_step (.of_clientStep ho.running (ho.late c) h)
  | wake c w => exact ho.late_step (.of_wake (ho.late c) h)
  | timeOut c => exact ho.late_step (.of_timeOut h)
  | worker w => exact ho.late_step (.of_workerStep h)
  | spurious w => exact ho.late_step (.of_spurious h)

theorem refines_bag :
    Refines Serves (step (m := m) (n := n) (α := α)) LeftOpen observe Open atomic := by
  intro s a t ho hok h
  cases a with
  | call c op =>
    refine refines_call ?_ h
    rintro rfl
    exact hok
  | client c => exact refines_client ho h
  | wake c w => exact refines_wake h
  | timeOut c => exact refines_timeOut h
  | worker w => exact refines_worker h
  | spurious w => exact refines_spurious h

theorem atomic_start : atomic (start m n α) = .start 0 := by
  have hbag : bag (fun _ => [] : Queues n α) = 0 := Finset.sum_eq_zero fun _ _ => rfl
  have hstatus : (Sum.elim (fun _ => .idle) fun _ => .idle : Fin m ⊕ Fin n → Status (Op α) (Reply α))
      = fun _ => .idle := by
    funext i
    cases i <;> rfl
  unfold atomic Configuration.start
  congr 1

/-- **The pool is a bag.** Whatever the submitters and the workers of a pool that is not shut down
see, an atomic bag could have shown them: each `submit` puts its task in at one instant of the call,
each task a worker executes was in the bag, and `try_submit` fails only on 2047 tasks of the same
priority. -/
theorem bag_linearizable {as : List (Action m n α)} {s : State m n α}
    (hrun : Run step LeftOpen (start m n α) as s) :
    Steps Serves (.start 0) (observed step observe (start m n α) as) (atomic s) := by
  rw [← atomic_start]
  exact refines_bag.steps open_step hrun open_start

/-- Task 7 is submitted and taken. -/
def handedOut : List (Action 1 1 Nat) :=
  [.call 0 (.submit 7 .high), .client 0, .client 0, .worker 0, .client 0, .worker 0, .worker 0,
   .worker 0]

theorem bag_linearizable_handedOut :
    Steps Serves (.start 0) (observed step observe (start 1 1 Nat) handedOut)
      (atomic ((exec step LeftOpen (start 1 1 Nat) handedOut).get (by decide +kernel))) :=
  bag_linearizable (.of_isSome (by decide +kernel))

end Pool
end NexusTask
