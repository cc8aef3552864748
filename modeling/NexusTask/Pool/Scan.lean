import Mathlib.Algebra.Group.Action.Defs
import Mathlib.Algebra.Order.BigOperators.Group.List
import Mathlib.Algebra.Order.Ring.Nat
import NexusTask.Queue.PrioritySet

/-!
# The queues of a `ThreadPool`, ring by ring

`has_pending_work_locked` compares the indices of every ring, and a worker that looks for work reads
slots, in an order that depends on the worker. With no two operations overlapping and no spurious
failure each ring represents a list, so the pool is one of `Pool.Queues`: the predicate is
`Pool.hasPendingWork`, and a worker finds the first task on its way through `Pool.scanOrder`.
-/

set_option autoImplicit false

namespace NexusTask

open Pool (Queues QueueRef levels scanOrder mem_scanOrder)

/-- The scan of the levels that are left gives the first task on its way, and where there is none
the set holds what it held. -/
theorem PriorityQueueSet.Represents.dequeueFrom_first {α : Type} {capacity : Nat}
    {s : PriorityQueueSet α} {held : List (α × TaskPriority)} (h : s.Represents capacity held)
    (ps : List TaskPriority) :
    (s.dequeueFrom ps).1 = ps.findSome? (fun p => (PriorityFifo.level held p).head?) ∧
    ((s.dequeueFrom ps).1 = none → (s.dequeueFrom ps).2.Represents capacity held) := by
  induction ps generalizing s with
  | nil => exact ⟨rfl, fun _ => h⟩
  | cons p ps ih =>
    obtain ⟨hcap, hqueue⟩ := h p
    have hpop := hqueue.tryDequeue
    rw [hcap] at hpop
    rw [PriorityQueueSet.dequeueFrom, List.findSome?_cons]
    revert hpop
    rcases (s.queues p).tryDequeue with ⟨x, queue⟩
    cases hlevel : PriorityFifo.level held p with
    | nil =>
      rintro ⟨rfl, hcap', hrep⟩
      exact ih (h.put hcap' (hlevel ▸ hrep) fun _ _ => rfl)
    | cons task tasks =>
      rintro ⟨rfl, _, _⟩
      refine ⟨rfl, ?_⟩
      intro hnone
      cases hnone

/-- The queues of a pool with `n` workers. -/
structure ThreadPool (n : Nat) (α : Type) where
  globalQueue : PriorityQueueSet α
  localQueues : Fin n → PriorityQueueSet α

namespace ThreadPool

variable {n : Nat} {α : Type}

/-- `capacity_per_queue` of the global queues and of a worker's. -/
def capacity : Option (Fin n) → Nat
  | none => 2048
  | some _ => 512

/-- The constructor. The slots, of 8 bytes each, are in memory all at once, and a `size_t` counts
its bytes. -/
def new (n : Nat) : Except String (ThreadPool n α) :=
  if sizeMax ≤ 8 * (4 * (2048 + n * 512)) then .error "std::bad_alloc"
  else match PriorityQueueSet.new 2048, PriorityQueueSet.new 512 with
    | .ok globalQueue, .ok localQueue => .ok { globalQueue, localQueues := fun _ => localQueue }
    | .error message, _ | _, .error message => .error message

/-- The set of a worker, or the global one. -/
def queues (pool : ThreadPool n α) : Option (Fin n) → PriorityQueueSet α
  | none => pool.globalQueue
  | some v => pool.localQueues v

def put (pool : ThreadPool n α) (owner : Option (Fin n)) (s : PriorityQueueSet α) :
    ThreadPool n α :=
  match owner with
  | none => { pool with globalQueue := s }
  | some v => { pool with localQueues := Function.update pool.localQueues v s }

def hasPendingWorkLocked (pool : ThreadPool n α) : Bool :=
  if !pool.globalQueue.empty then true
  else (List.finRange n).any fun v => !(pool.localQueues v).empty

def pendingTasks (pool : ThreadPool n α) : Nat :=
  (List.finRange n).foldl (fun total v => (total + (pool.localQueues v).size) % sizeMax)
    pool.globalQueue.size

/-- The loop of a worker over the local queues that are left. -/
def steal (pool : ThreadPool n α) (threadId : Fin n) : List (Fin n) → Option α × ThreadPool n α
  | [] => (none, pool)
  | i :: rest =>
      if i = threadId then pool.steal threadId rest
      else match (pool.localQueues i).stealHighest with
        | (some task, s) => (some task, pool.put (some i) s)
        | (none, s) => (pool.put (some i) s).steal threadId rest

/-- How a worker looks for a task in `worker_loop`. -/
def scan (pool : ThreadPool n α) (threadId : Fin n) : Option α × ThreadPool n α :=
  match (pool.localQueues threadId).tryDequeueHighest with
  | (some task, s) => (some task, pool.put (some threadId) s)
  | (none, s) =>
      let pool := pool.put (some threadId) s
      match pool.globalQueue.tryDequeueHighest with
      | (some task, s) => (some task, pool.put none s)
      | (none, s) => (pool.put none s).steal threadId (List.finRange n)

/-- A call on one of the sets. -/
def call (pool : ThreadPool n α) (c : Option (Fin n) × PriorityQueueSet.Call α) :
    Option (LockFreeTaskQueue.Reply α × ThreadPool n α) :=
  ((pool.queues c.1).call c.2).map fun (reply, s) => (reply, pool.put c.1 s)

/-! ## The representation -/

/-- What each set holds. -/
abbrev Held (n : Nat) (α : Type) := Option (Fin n) → List (α × TaskPriority)

/-- The same call on what is held. -/
def fifoCall (held : Held n α) (c : Option (Fin n) × PriorityQueueSet.Call α) :
    LockFreeTaskQueue.Reply α × Held n α :=
  let (reply, held') := PriorityQueueSet.fifoCall (capacity c.1 - 1) (held c.1) c.2
  (reply, Function.update held c.1 held')

/-- Each set represents what it holds. -/
def Represents (pool : ThreadPool n α) (held : Held n α) : Prop :=
  ∀ owner, (pool.queues owner).Represents (capacity owner) (held owner)

/-- What is held, queue by queue. -/
def Held.queues (held : Held n α) : Queues n α :=
  fun r => PriorityFifo.level (held r.1) r.2

@[simp] theorem put_queues_self (pool : ThreadPool n α) (owner : Option (Fin n))
    (s : PriorityQueueSet α) : (pool.put owner s).queues owner = s := by
  cases owner with
  | none => rfl
  | some v => exact Function.update_self ..

theorem put_queues_of_ne (pool : ThreadPool n α) {owner owner' : Option (Fin n)}
    (h : owner' ≠ owner) (s : PriorityQueueSet α) :
    (pool.put owner s).queues owner' = pool.queues owner' := by
  cases owner with
  | none =>
    cases owner' with
    | none => exact absurd rfl h
    | some v => rfl
  | some v =>
    cases owner' with
    | none => rfl
    | some v' => exact Function.update_of_ne (fun hv => h (congrArg some hv)) ..

namespace Represents

variable {pool : ThreadPool n α} {held : Held n α}

/-- A call on one set. -/
theorem put (h : Represents pool held) {owner : Option (Fin n)} {s : PriorityQueueSet α}
    {held' : List (α × TaskPriority)} (hs : s.Represents (capacity owner) held') :
    Represents (pool.put owner s) (Function.update held owner held') := by
  intro owner'
  by_cases ho : owner' = owner
  · subst ho
    rw [put_queues_self, Function.update_self]
    exact hs
  · rw [put_queues_of_ne pool ho, Function.update_of_ne ho]
    exact h owner'

/-- A call that leaves what is held as it is. -/
theorem put_same (h : Represents pool held) {owner : Option (Fin n)} {s : PriorityQueueSet α}
    (hs : s.Represents (capacity owner) (held owner)) : Represents (pool.put owner s) held := by
  have hput := h.put hs
  rwa [Function.update_eq_self] at hput

end Represents

theorem capacity_lt (owner : Option (Fin n)) : 8 * capacity owner < sizeMax := by
  cases owner with
  | none => exact (by decide : 8 * 2048 < sizeMax)
  | some v => exact (by decide : 8 * 512 < sizeMax)

/-- **A pool is its queues.** -/
theorem call_simulates :
    Object.Simulates (Represents (n := n) (α := α)) call fifoCall := by
  rintro pool held ⟨owner, c⟩ h
  obtain ⟨s, hcall, hrep⟩ :=
    PriorityQueueSet.call_simulates (capacity_lt owner) _ _ c (h owner)
  refine ⟨pool.put owner s, ?_, h.put hrep⟩
  unfold call
  rw [hcall]
  rfl

theorem new_represents {pool : ThreadPool n α} (hnew : new n = .ok pool) :
    8 * (4 * (2048 + n * 512)) < sizeMax ∧ Represents pool fun _ => [] := by
  unfold new at hnew
  split at hnew
  next => exact absurd hnew (by simp)
  next hfits =>
    refine ⟨Nat.not_le.mp hfits, ?_⟩
    split at hnew
    next globalQueue localQueue hglobal hlocal =>
      obtain rfl := Except.ok.inj hnew
      rintro (_ | v)
      · exact (PriorityQueueSet.new_represents (k := 11) hglobal).2
      · exact (PriorityQueueSet.new_represents (k := 9) hlocal).2
    next => exact absurd hnew (by simp)
    next => exact absurd hnew (by simp)

theorem foldl_add_mod {ι : Type} (f : ι → Nat) (l : List ι) {total : Nat}
    (h : total + (l.map f).sum < sizeMax) :
    l.foldl (fun total i => (total + f i) % sizeMax) total = total + (l.map f).sum := by
  induction l generalizing total with
  | nil => rfl
  | cons i l ih =>
    rw [List.map_cons, List.sum_cons] at h ⊢
    rw [List.foldl_cons, Nat.mod_eq_of_lt (by omega), ih (by omega)]
    omega

/-! ## The scan -/

/-- The first task of a queue. -/
def Held.first (held : Held n α) (r : QueueRef n) : Option α := (held.queues r).head?

/-- The order in which `try_dequeue_highest` looks into the queues of a set. -/
def setOrder (owner : Option (Fin n)) : List (QueueRef n) := levels.map (owner, ·)

namespace Represents

variable {pool : ThreadPool n α} {held : Held n α}

/-- The set gives its first task, and where there is none it holds what it held. -/
theorem tryDequeueHighest (h : Represents pool held) (owner : Option (Fin n)) :
    (pool.queues owner).tryDequeueHighest.1 = (setOrder owner).findSome? held.first ∧
    ((pool.queues owner).tryDequeueHighest.1 = none →
      Represents (pool.put owner (pool.queues owner).tryDequeueHighest.2) held) := by
  obtain ⟨hfirst, hsame⟩ := (h owner).dequeueFrom_first levels
  refine ⟨?_, fun hnone => h.put_same (hsame hnone)⟩
  unfold setOrder
  rw [List.findSome?_map]
  exact hfirst

theorem steal (h : Represents pool held) (w : Fin n) (rest : List (Fin n)) :
    (pool.steal w rest).1 =
      ((rest.filter (· ≠ w)).flatMap fun v => setOrder (some v)).findSome? held.first := by
  induction rest generalizing pool with
  | nil => rfl
  | cons i rest ih =>
    rw [ThreadPool.steal]
    by_cases hi : i = w
    · rw [if_pos hi, ih h, List.filter_cons_of_neg (by simpa using hi)]
    · obtain ⟨hfirst, hsame⟩ := h.tryDequeueHighest (some i)
      rw [if_neg hi, List.filter_cons_of_pos (by simpa using hi), List.flatMap_cons,
        List.findSome?_append, ← hfirst]
      show (match (pool.queues (some i)).tryDequeueHighest with
        | (some task, s) => (some task, pool.put (some i) s)
        | (none, s) => (pool.put (some i) s).steal w rest).1 = _
      generalize (pool.queues (some i)).tryDequeueHighest = r at hsame
      obtain ⟨task, s⟩ := r
      cases task with
      | some task => rfl
      | none => exact ih (hsame rfl)

/-- **A worker finds the first task on its way.** -/
theorem scan (h : Represents pool held) (w : Fin n) :
    (pool.scan w).1 = (scanOrder w).findSome? held.first := by
  have horder : scanOrder w = setOrder (some w) ++ (setOrder none ++
      ((List.finRange n).filter (· ≠ w)).flatMap fun v => setOrder (some v)) :=
    List.append_assoc ..
  obtain ⟨hown, hsame⟩ := h.tryDequeueHighest (some w)
  rw [horder, List.findSome?_append, List.findSome?_append, ← hown]
  unfold ThreadPool.scan
  change (match (pool.queues (some w)).tryDequeueHighest with
    | (some task, s) => (some task, pool.put (some w) s)
    | (none, s) => _).1 = _
  generalize (pool.queues (some w)).tryDequeueHighest = own at hsame
  obtain ⟨task, s⟩ := own
  cases task with
  | some task => rfl
  | none =>
    have h' := hsame rfl
    dsimp only at h' ⊢
    generalize pool.put (some w) s = pool' at h'
    obtain ⟨hglobal, hsame'⟩ := h'.tryDequeueHighest none
    rw [← hglobal]
    change (match (pool'.queues none).tryDequeueHighest with
      | (some task, s) => (some task, pool'.put none s)
      | (none, s) => (pool'.put none s).steal w (List.finRange n)).1 = _
    generalize (pool'.queues none).tryDequeueHighest = global at hsame'
    obtain ⟨task, s⟩ := global
    cases task with
    | some task => rfl
    | none => exact (hsame' rfl).steal w (List.finRange n)

theorem empty_eq (h : Represents pool held) (owner : Option (Fin n)) :
    (pool.queues owner).empty = Pool.setEmpty held.queues owner := by
  rw [Bool.eq_iff_iff, (h owner).empty_eq, List.isEmpty_iff, Pool.setEmpty_iff]
  exact PriorityFifo.levels_eq_nil_iff.symm

theorem hasPendingWorkLocked_eq (h : Represents pool held) :
    pool.hasPendingWorkLocked = Pool.hasPendingWork held.queues := by
  have hglobal : pool.globalQueue.empty = Pool.setEmpty held.queues none := h.empty_eq none
  have hlocal : ∀ v, (pool.localQueues v).empty = Pool.setEmpty held.queues (some v) :=
    fun v => h.empty_eq (some v)
  unfold hasPendingWorkLocked Pool.hasPendingWork
  simp only [hglobal, hlocal]
  cases Pool.setEmpty held.queues none <;> rfl

/-- A set holds fewer tasks than its slots. -/
theorem length_le (h : Represents pool held) (owner : Option (Fin n)) :
    (held owner).length ≤ 4 * (capacity owner - 1) := by
  have hlevel : ∀ p, (PriorityFifo.level (held owner) p).length < capacity owner := by
    intro p
    obtain ⟨hcap, hrep⟩ := h owner p
    exact hcap ▸ hrep.holds.length_lt
  rw [PriorityQueueSet.Represents.length_eq]
  have hlow := hlevel .low
  have hnormal := hlevel .normal
  have hhigh := hlevel .high
  have hcritical := hlevel .critical
  omega

/-- The number of bytes of the slots bounds the sum: it does not wrap. -/
theorem pendingTasks_eq (h : Represents pool held) (hfits : 8 * (4 * (2048 + n * 512)) < sizeMax) :
    pool.pendingTasks =
      (held none).length + ((List.finRange n).map fun v => (held (some v)).length).sum := by
  have hlocal : ∀ v, (pool.localQueues v).size = (held (some v)).length :=
    fun v => (h (some v)).size_eq (capacity_lt (some v))
  have hglobal : pool.globalQueue.size = (held none).length :=
    (h none).size_eq (capacity_lt (n := n) none)
  have hsum : ((List.finRange n).map fun v => (held (some v)).length).sum ≤ n * 2044 := by
    have hle := List.sum_le_card_nsmul ((List.finRange n).map fun v => (held (some v)).length)
      2044 ?_
    · rwa [List.length_map, List.length_finRange, smul_eq_mul] at hle
    · intro k hk
      obtain ⟨v, _, rfl⟩ := List.mem_map.mp hk
      exact h.length_le (some v)
  have hnone : (held none).length ≤ 4 * 2047 := h.length_le none
  unfold pendingTasks
  simp only [hlocal, hglobal]
  apply foldl_add_mod
  omega

/-- There is work exactly if some queue has a task. -/
theorem hasPendingWorkLocked_iff (h : Represents pool held) :
    pool.hasPendingWorkLocked = true ↔ ∃ r, held.queues r ≠ [] := by
  rw [h.hasPendingWorkLocked_eq, ← Bool.not_eq_false, Pool.hasPendingWork_eq_false_iff]
  exact not_forall

theorem scan_isSome_iff (h : Represents pool held) (w : Fin n) :
    (pool.scan w).1.isSome = true ↔ ∃ r, held.queues r ≠ [] := by
  rw [h.scan w, List.findSome?_isSome_iff]
  unfold Held.first
  constructor
  · rintro ⟨r, _, hr⟩
    exact ⟨r, List.isSome_head?.mp hr⟩
  · rintro ⟨r, hr⟩
    exact ⟨r, mem_scanOrder w r, List.isSome_head?.mpr hr⟩

theorem pendingTasks_pos_iff (h : Represents pool held)
    (hfits : 8 * (4 * (2048 + n * 512)) < sizeMax) :
    0 < pool.pendingTasks ↔ ∃ r, held.queues r ≠ [] := by
  have hset : ∀ owner, 0 < (held owner).length ↔ ∃ p, held.queues (owner, p) ≠ [] := by
    intro owner
    rw [List.length_pos_iff, ← not_forall]
    apply not_congr
    exact PriorityFifo.levels_eq_nil_iff.symm
  rw [h.pendingTasks_eq hfits, Nat.add_pos_iff_pos_or_pos, List.sum_pos_iff_exists_pos_nat, hset]
  constructor
  · rintro (⟨p, hp⟩ | ⟨k, hk, hpos⟩)
    · exact ⟨(none, p), hp⟩
    · obtain ⟨v, _, rfl⟩ := List.mem_map.mp hk
      obtain ⟨p, hp⟩ := (hset (some v)).mp hpos
      exact ⟨(some v, p), hp⟩
  · rintro ⟨⟨owner, p⟩, hp⟩
    cases owner with
    | none => exact .inl ⟨p, hp⟩
    | some v =>
      exact .inr ⟨_, List.mem_map.mpr ⟨v, List.mem_finRange v, rfl⟩, (hset (some v)).mpr ⟨p, hp⟩⟩

end Represents

/-- **The wait predicate, the scan of every worker and `pending_tasks` agree** in every state that
operations on the queues lead to. -/
theorem pending_iff_found {pool₀ pool : ThreadPool n α} (hnew : new n = .ok pool₀)
    {calls : List (Option (Fin n) × PriorityQueueSet.Call α)}
    {replies : List (LockFreeTaskQueue.Reply α)}
    (hserve : Object.serve call pool₀ calls = some (replies, pool)) (w : Fin n) :
    (pool.hasPendingWorkLocked = true ↔ (pool.scan w).1.isSome = true) ∧
      (pool.hasPendingWorkLocked = true ↔ 0 < pool.pendingTasks) := by
  obtain ⟨hfits, hnil⟩ := new_represents hnew
  obtain ⟨pool', hserve', h⟩ := call_simulates.serve hnil calls
  obtain ⟨_, rfl⟩ := Prod.mk.inj (Option.some.inj (hserve.symm.trans hserve'))
  rw [h.hasPendingWorkLocked_iff, h.scan_isSome_iff w, h.pendingTasks_pos_iff hfits]
  exact ⟨.rfl, .rfl⟩

/-- Of two workers the second has a task, and both see it. -/
theorem pending_iff_found_two : ∃ pool₀ pool : ThreadPool 2 Nat, new 2 = .ok pool₀ ∧
    Object.serve call pool₀ [(some (Fin.last 1), .tryEnqueue 7 .high)] = some ([.flag true], pool) ∧
      ∀ w, (pool.hasPendingWorkLocked = true ↔ (pool.scan w).1.isSome = true) ∧
        (pool.hasPendingWorkLocked = true ↔ 0 < pool.pendingTasks) :=
  ⟨_, _, rfl, rfl, fun w => pending_iff_found (rfl : new 2 = .ok _)
    (rfl : Object.serve call _ [(some (Fin.last 1), .tryEnqueue 7 .high)] =
      some ([.flag true], _)) w⟩

end ThreadPool
end NexusTask
