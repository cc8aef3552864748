import NexusTask.Lib.PriorityFifo
import NexusTask.Pool.Queues
import NexusTask.Queue.Sequential

/-!
# `PriorityQueueSet`

Four rings, one for each priority. With no two calls overlapping and no spurious failure they are
one stable priority queue: `Represents` says that each ring holds the tasks of its level, in the
order of arrival, and each call is the operation of `PriorityFifo` it stands for. Only the scan of
the levels looks at more than one ring.
-/

set_option autoImplicit false

namespace NexusTask

/-- `priority_index`, the value of the enumerator. -/
def TaskPriority.priorityIndex : TaskPriority → Nat
  | .low => 0
  | .normal => 1
  | .high => 2
  | .critical => 3

theorem TaskPriority.priorityIndex_injective : Function.Injective TaskPriority.priorityIndex := by
  intro p p' h
  cases p <;> cases p' <;> first | rfl | exact absurd h (by decide)

structure PriorityQueueSet (α : Type) where
  queues : TaskPriority → LockFreeTaskQueue α

namespace PriorityQueueSet

open Pool (levels mem_levels)

variable {α : Type}

/-- The constructor makes four queues alike. A slot is a pointer of 8 bytes, and an array that no
`size_t` can count the bytes of is not allocated. -/
def new (capacityPerQueue : Nat) : Except String (PriorityQueueSet α) :=
  if sizeMax ≤ 8 * capacityPerQueue then .error "std::bad_array_new_length"
  else match LockFreeTaskQueue.new capacityPerQueue with
    | .error message => .error message
    | .ok queue => .ok { queues := fun _ => queue }

def put (s : PriorityQueueSet α) (p : TaskPriority) (queue : LockFreeTaskQueue α) :
    PriorityQueueSet α :=
  { s with queues := Function.update s.queues p queue }

@[simp] theorem put_queues_self (s : PriorityQueueSet α) (p : TaskPriority)
    (queue : LockFreeTaskQueue α) : (s.put p queue).queues p = queue :=
  Function.update_self ..

theorem put_queues_of_ne (s : PriorityQueueSet α) {p p' : TaskPriority} (h : p' ≠ p)
    (queue : LockFreeTaskQueue α) : (s.put p queue).queues p' = s.queues p' :=
  Function.update_of_ne h ..

def tryEnqueue (s : PriorityQueueSet α) (task : α) (priority : TaskPriority) :
    Bool × PriorityQueueSet α :=
  let (enqueued, queue) := (s.queues priority).tryEnqueue task
  (enqueued, s.put priority queue)

/-- The loop of `try_dequeue_highest` over the levels that are left. -/
def dequeueFrom (s : PriorityQueueSet α) : List TaskPriority → Option α × PriorityQueueSet α
  | [] => (none, s)
  | p :: ps =>
      match (s.queues p).tryDequeue with
      | (some task, queue) => (some task, s.put p queue)
      | (none, queue) => (s.put p queue).dequeueFrom ps

def tryDequeueHighest (s : PriorityQueueSet α) : Option α × PriorityQueueSet α :=
  s.dequeueFrom levels

def stealHighest (s : PriorityQueueSet α) : Option α × PriorityQueueSet α := s.tryDequeueHighest

def empty (s : PriorityQueueSet α) : Bool := levels.reverse.all fun p => (s.queues p).empty

def size (s : PriorityQueueSet α) : Nat :=
  levels.reverse.foldl (fun total p => (total + (s.queues p).size) % sizeMax) 0

/-! ## Calls -/

inductive Call (α : Type)
  | tryEnqueue (task : α) (priority : TaskPriority)
  | tryDequeueHighest
  | stealHighest
  | empty
  | size

/-- One call of the set. Every call returns. -/
def call (s : PriorityQueueSet α) : Call α → Option (LockFreeTaskQueue.Reply α × PriorityQueueSet α)
  | .tryEnqueue task priority => let (b, s') := s.tryEnqueue task priority; some (.flag b, s')
  | .tryDequeueHighest => let (x, s') := s.tryDequeueHighest; some (.task x, s')
  | .stealHighest => let (x, s') := s.stealHighest; some (.task x, s')
  | .empty => some (.flag s.empty, s)
  | .size => some (.number s.size, s)

/-- The same call of a stable priority queue with room for `bound` tasks at each level. -/
def fifoCall (bound : Nat) (held : List (α × TaskPriority)) :
    Call α → LockFreeTaskQueue.Reply α × List (α × TaskPriority)
  | .tryEnqueue task priority =>
      let (b, held') := PriorityFifo.push bound held task priority; (.flag b, held')
  | .tryDequeueHighest | .stealHighest =>
      let (x, held') := PriorityFifo.pop TaskPriority.priorityIndex held; (.task x, held')
  | .empty => (.flag held.isEmpty, held)
  | .size => (.number held.length, held)

/-! ## The representation -/

/-- Each ring represents its level. -/
def Represents (capacity : Nat) (s : PriorityQueueSet α) (held : List (α × TaskPriority)) : Prop :=
  ∀ p, (s.queues p).capacity = capacity ∧ (s.queues p).Represents (PriorityFifo.level held p)

namespace Represents

open PriorityFifo (level)

variable {capacity : Nat} {s : PriorityQueueSet α} {held held' : List (α × TaskPriority)}

/-- A call on one ring, when it changes no other level. -/
theorem put (h : Represents capacity s held) {p : TaskPriority} {queue : LockFreeTaskQueue α}
    (hcap : queue.capacity = capacity) (hqueue : queue.Represents (level held' p))
    (hothers : ∀ p', p' ≠ p → level held' p' = level held p') :
    Represents capacity (s.put p queue) held' := by
  intro p'
  by_cases hp : p' = p
  · subst hp
    rw [put_queues_self]
    exact ⟨hcap, hqueue⟩
  · rw [put_queues_of_ne s hp, hothers p' hp]
    exact h p'

theorem tryEnqueue (h : Represents capacity s held) (task : α) (p : TaskPriority) :
    (s.tryEnqueue task p).1 = (PriorityFifo.push (capacity - 1) held task p).1 ∧
    Represents capacity (s.tryEnqueue task p).2
      (PriorityFifo.push (capacity - 1) held task p).2 := by
  obtain ⟨hcap, hrep⟩ := h p
  have hpush := hrep.tryEnqueue (x := task)
  rw [hcap] at hpush
  unfold PriorityQueueSet.tryEnqueue
  unfold PriorityFifo.push BoundedFifo.push at *
  revert hpush
  rcases (s.queues p).tryEnqueue task with ⟨b, queue⟩
  split
  next hroom =>
    rintro ⟨hflag, hcap', hrep'⟩
    refine ⟨hflag, h.put hcap' ?_ fun p' hp => PriorityFifo.level_push_of_ne held task hp⟩
    rw [PriorityFifo.level_push_self]
    exact hrep'
  next hfull =>
    rintro ⟨hflag, hcap', hrep'⟩
    exact ⟨hflag, h.put hcap' hrep' fun _ _ => rfl⟩

/-- The scan of the levels that are left, when those above them are empty. -/
theorem dequeueFrom (h : Represents capacity s held) (ps : List TaskPriority)
    (hsorted : ps.Pairwise fun p p' => p'.priorityIndex < p.priorityIndex)
    (habove : ∀ p, p ∉ ps → level held p = []) :
    (s.dequeueFrom ps).1 = (PriorityFifo.pop TaskPriority.priorityIndex held).1 ∧
    Represents capacity (s.dequeueFrom ps).2
      (PriorityFifo.pop TaskPriority.priorityIndex held).2 := by
  induction ps generalizing s with
  | nil =>
    obtain rfl := PriorityFifo.eq_nil_of_levels fun p => habove p List.not_mem_nil
    exact ⟨rfl, h⟩
  | cons p ps ih =>
    obtain ⟨hbelow, hsorted'⟩ := List.pairwise_cons.mp hsorted
    have hpop := (h p).2.tryDequeue
    rw [(h p).1] at hpop
    unfold PriorityQueueSet.dequeueFrom
    cases hlevel : level held p with
    | nil =>
      rw [hlevel] at hpop
      revert hpop
      rcases (s.queues p).tryDequeue with ⟨x, queue⟩
      rintro ⟨rfl, hcap, hrep⟩
      refine ih (h.put hcap (hlevel ▸ hrep) fun _ _ => rfl) hsorted' fun p' hp' => ?_
      by_cases hsame : p' = p
      · rw [hsame, hlevel]
      · exact habove p' (by simp [hsame, hp'])
    | cons x xs =>
      have htop : ∀ p', p.priorityIndex < p'.priorityIndex → level held p' = [] := by
        intro p' hlt
        refine habove p' fun hmem => ?_
        rcases List.mem_cons.mp hmem with rfl | hmem
        · exact Nat.lt_irrefl _ hlt
        · exact Nat.lt_asymm hlt (hbelow p' hmem)
      obtain ⟨hfirst, hself, hothers⟩ :=
        PriorityFifo.pop_of_level TaskPriority.priorityIndex_injective hlevel htop
      rw [hlevel] at hpop
      revert hpop
      rcases (s.queues p).tryDequeue with ⟨y, queue⟩
      rintro ⟨rfl, hcap, hrep⟩
      exact ⟨hfirst.symm, h.put hcap (hself ▸ hrep) hothers⟩

theorem tryDequeueHighest (h : Represents capacity s held) :
    s.tryDequeueHighest.1 = (PriorityFifo.pop TaskPriority.priorityIndex held).1 ∧
    Represents capacity s.tryDequeueHighest.2
      (PriorityFifo.pop TaskPriority.priorityIndex held).2 :=
  h.dequeueFrom levels (by decide) fun p hp => absurd (mem_levels p) hp

theorem empty_eq (h : Represents capacity s held) : s.empty = held.isEmpty := by
  rw [Bool.eq_iff_iff, PriorityQueueSet.empty, List.all_eq_true, List.isEmpty_iff]
  constructor
  · intro hall
    refine PriorityFifo.eq_nil_of_levels fun p => (h p).2.empty_iff.mp ?_
    have hp := hall p (List.mem_reverse.mpr (mem_levels p))
    exact beq_iff_eq.mp hp
  · rintro rfl p _
    exact beq_iff_eq.mpr ((h p).2.empty_iff.mpr rfl)

/-- Every task is at one of the four levels. -/
theorem length_eq (held : List (α × TaskPriority)) :
    held.length = (level held .low).length + (level held .normal).length
      + (level held .high).length + (level held .critical).length := by
  induction held with
  | nil => rfl
  | cons e held ih =>
    obtain ⟨x, p⟩ := e
    cases p <;> simp [level] at ih ⊢ <;> omega

/-- The sum does not wrap: a set whose arrays could be allocated holds fewer than `2 ^ 64` tasks. -/
theorem size_eq (h : Represents capacity s held) (hcap : 8 * capacity < sizeMax) :
    s.size = held.length := by
  have hlevel : ∀ p, (s.queues p).size = (level held p).length ∧
      (level held p).length < capacity := by
    intro p
    obtain ⟨hc, hrep⟩ := h p
    exact ⟨hrep.size_eq, hc ▸ hrep.holds.length_lt⟩
  obtain ⟨hlow, hlow'⟩ := hlevel .low
  obtain ⟨hnormal, hnormal'⟩ := hlevel .normal
  obtain ⟨hhigh, hhigh'⟩ := hlevel .high
  obtain ⟨hcritical, hcritical'⟩ := hlevel .critical
  have hsum := length_eq held
  show ((((0 + (s.queues .low).size) % sizeMax + (s.queues .normal).size) % sizeMax
    + (s.queues .high).size) % sizeMax + (s.queues .critical).size) % sizeMax = held.length
  rw [hlow, hnormal, hhigh, hcritical, hsum]
  unfold sizeMax at *
  omega

end Represents

/-- The constructor's set holds nothing. -/
theorem new_represents {k : Nat} {s : PriorityQueueSet α} (hnew : new (2 ^ k) = .ok s) :
    8 * 2 ^ k < sizeMax ∧ Represents (2 ^ k) s [] := by
  unfold new at hnew
  split at hnew
  next => exact absurd hnew (by simp)
  next hcap =>
    have hk : k < 64 := by
      refine Nat.not_le.mp fun hle => hcap ?_
      have hpow : sizeMax ≤ 2 ^ k := Nat.pow_le_pow_right (by omega) hle
      omega
    obtain ⟨q, hq, hcapacity, hrep⟩ := LockFreeTaskQueue.new_represents (α := α) hk
    rw [hq] at hnew
    obtain rfl := Except.ok.inj hnew
    exact ⟨Nat.not_le.mp hcap, fun _ => ⟨hcapacity, hrep⟩⟩

/-- Each call is the operation of the stable priority queue. -/
theorem call_simulates {capacity : Nat} (hcap : 8 * capacity < sizeMax) :
    Object.Simulates (Represents (α := α) capacity) call (fifoCall (capacity - 1)) := by
  intro s held c h
  cases c with
  | tryEnqueue task priority =>
    obtain ⟨hflag, hrep⟩ := h.tryEnqueue task priority
    exact ⟨_, congrArg (fun b => some (LockFreeTaskQueue.Reply.flag b, _)) hflag, hrep⟩
  | tryDequeueHighest =>
    obtain ⟨htask, hrep⟩ := h.tryDequeueHighest
    exact ⟨_, congrArg (fun y => some (LockFreeTaskQueue.Reply.task y, _)) htask, hrep⟩
  | stealHighest =>
    obtain ⟨htask, hrep⟩ := h.tryDequeueHighest
    exact ⟨_, congrArg (fun y => some (LockFreeTaskQueue.Reply.task y, _)) htask, hrep⟩
  | empty => exact ⟨s, congrArg (fun b => some (LockFreeTaskQueue.Reply.flag b, s)) h.empty_eq, h⟩
  | size =>
    exact ⟨s, congrArg (fun n => some (LockFreeTaskQueue.Reply.number n, s)) (h.size_eq hcap), h⟩

/-- **The four rings are one stable priority queue.** For every capacity the constructor accepts and
every sequence of calls, each call returns what the queue of all held tasks returns: an enqueue is
refused exactly if `capacity - 1` tasks are held at its level, and what is taken is the first to
arrive of the highest level held. -/
theorem refines_priority_fifo {k : Nat} {s : PriorityQueueSet α} (hnew : new (2 ^ k) = .ok s)
    (calls : List (Call α)) :
    ∃ s', Object.serve call s calls
        = some ((Object.replies (fifoCall (2 ^ k - 1)) [] calls).1, s') ∧
      Represents (2 ^ k) s' (Object.replies (fifoCall (2 ^ k - 1)) [] calls).2 := by
  obtain ⟨hcap, hrep⟩ := new_represents hnew
  exact (call_simulates hcap).serve hrep calls

/-- Rings of 4 slots: a fourth task is refused at its level and another level takes it, and the
first of the high ones comes before the normal ones. -/
theorem refines_priority_fifo_four :
    ∃ s s' : PriorityQueueSet Nat, new (2 ^ 2) = .ok s ∧
      Object.serve call s [.tryEnqueue 1 .normal, .tryEnqueue 2 .high, .tryEnqueue 3 .normal,
          .tryEnqueue 4 .high, .tryEnqueue 5 .normal, .tryEnqueue 6 .normal, .tryEnqueue 6 .low,
          .tryDequeueHighest, .stealHighest, .tryDequeueHighest, .size, .empty]
        = some ([.flag true, .flag true, .flag true, .flag true, .flag true, .flag false,
            .flag true, .task (some 2), .task (some 4), .task (some 1), .number 3, .flag false],
          s') := by
  obtain ⟨s', hserve, _⟩ := refines_priority_fifo (rfl : new (2 ^ 2) = .ok _)
    [.tryEnqueue 1 .normal, .tryEnqueue 2 .high, .tryEnqueue 3 .normal,
      .tryEnqueue 4 .high, .tryEnqueue 5 .normal, .tryEnqueue 6 .normal, .tryEnqueue 6 .low,
      .tryDequeueHighest, .stealHighest, .tryDequeueHighest, .size, .empty]
  exact ⟨_, s', rfl, hserve⟩

end PriorityQueueSet
end NexusTask
