import Mathlib.Data.Fintype.Basic
import NexusTask.Lib.Run
import NexusTask.Queue.Basic

/-!
# `try_enqueue` and `try_dequeue`, one atomic access at a time

Any number of threads call the two operations; between two accesses of one thread any other may
move. What a thread has read is in its program counter, so a stale value is simply an old one that
is still there. A step is one load, one compare-exchange or one store of `head_`, `tail_` or a slot,
sequentially consistent; the arithmetic in between belongs to the access before it.
-/

set_option autoImplicit false

namespace NexusTask
namespace QueueRun

open Transition

/-- Where a thread is, with the locals it still needs. -/
inductive Pc (α : Type)
  | idle
  /-- `head_.load` of `try_enqueue`. -/
  | enqHead (task : α)
  /-- `tail_.load`, then the fullness test against the head read before. -/
  | enqTail (task : α) (head : Nat)
  /-- `buffer_[tail].compare_exchange_weak(nullptr, task)`. -/
  | enqClaim (task : α) (tail : Nat)
  /-- `tail_.store((tail + 1) & mask_)`. -/
  | enqStore (task : α) (tail : Nat)
  /-- `head_.load` of `try_dequeue`. -/
  | deqHead
  /-- `tail_.load`, then the emptiness test. -/
  | deqTail (head : Nat)
  /-- `buffer_[head & mask_].load`. -/
  | deqSlot (head : Nat)
  /-- `buffer_[head & mask_].compare_exchange_weak(task, nullptr)`. -/
  | deqClaim (head : Nat) (task : α)
  /-- `head_.store((head + 1) & mask_)`. -/
  | deqStore (head : Nat) (task : α)
  deriving DecidableEq

namespace Pc

variable {α : Type}

/-- The task a `try_enqueue` in progress was given. -/
def enqueuing : Pc α → Option α
  | .enqHead x | .enqTail x _ | .enqClaim x _ | .enqStore x _ => some x
  | _ => none

end Pc

/-- The queue, the threads, and the history of the calls: the tasks given to `try_enqueue`, those
for which it returned true, and those `try_dequeue` returned. -/
structure State (ι α : Type) where
  queue : LockFreeTaskQueue α
  pc : ι → Pc α
  issued : List α
  accepted : List α
  delivered : List α

inductive Action (ι α : Type)
  | callEnqueue (i : ι) (task : α)
  | callDequeue (i : ι)
  /-- The next access of thread `i`. -/
  | access (i : ι)
  /-- The `compare_exchange_weak` thread `i` is at fails although the value matches. -/
  | spurious (i : ι)
  deriving DecidableEq

variable {ι α : Type}

/-- No call is in progress. -/
def State.Quiescent (s : State ι α) : Prop := ∀ i, s.pc i = .idle

instance [Fintype ι] [DecidableEq α] (s : State ι α) : Decidable s.Quiescent :=
  inferInstanceAs (Decidable (∀ i, s.pc i = .idle))

/-- The non-null slots are the slots of the window, and the tasks accepted are, without
repetition, those delivered together with those in the window. -/
structure State.Consistent (s : State ι α) : Prop where
  slots : ∀ i, i < s.queue.capacity → (s.queue.buffer i ≠ none ↔ s.queue.InWindow i)
  distinct : (s.delivered ++ s.queue.window).Nodup
  tasks : s.accepted.Perm (s.delivered ++ s.queue.window)

/-- A queue just constructed and no call begun. -/
def start (ι : Type) {α : Type} (q : LockFreeTaskQueue α) : State ι α :=
  { queue := q, pc := fun _ => .idle, issued := [], accepted := [], delivered := [] }

section
variable [DecidableEq ι]

def State.goto (s : State ι α) (i : ι) (pc : Pc α) : State ι α :=
  { s with pc := Function.update s.pc i pc }

@[simp] theorem State.goto_queue (s : State ι α) (i : ι) (pc : Pc α) :
    (s.goto i pc).queue = s.queue := rfl
@[simp] theorem State.goto_issued (s : State ι α) (i : ι) (pc : Pc α) :
    (s.goto i pc).issued = s.issued := rfl
@[simp] theorem State.goto_accepted (s : State ι α) (i : ι) (pc : Pc α) :
    (s.goto i pc).accepted = s.accepted := rfl
@[simp] theorem State.goto_delivered (s : State ι α) (i : ι) (pc : Pc α) :
    (s.goto i pc).delivered = s.delivered := rfl
@[simp] theorem State.goto_pc_self (s : State ι α) (i : ι) (pc : Pc α) :
    (s.goto i pc).pc i = pc := Function.update_self ..
theorem State.goto_pc_of_ne {s : State ι α} {i j : ι} {pc : Pc α} (h : j ≠ i) :
    (s.goto i pc).pc j = s.pc j := Function.update_of_ne h ..

variable [DecidableEq α]

/-- The next access of thread `i`. -/
def access (s : State ι α) (i : ι) : Option (State ι α) :=
  match s.pc i with
  | .idle => none
  | .enqHead x => some (s.goto i (.enqTail x s.queue.head))
  | .enqTail x head =>
      -- Full, as far as the head read before says.
      if s.queue.next s.queue.tail = s.queue.masked head then some (s.goto i .idle)
      else some (s.goto i (.enqClaim x s.queue.tail))
  | .enqClaim x tail =>
      if s.queue.buffer tail = none then
        some ({ s with queue := s.queue.store tail (some x) }.goto i (.enqStore x tail))
      else some (s.goto i .idle)
  | .enqStore x tail =>
      some ({ s with queue := { s.queue with tail := s.queue.next tail },
                     accepted := s.accepted ++ [x] }.goto i .idle)
  | .deqHead => some (s.goto i (.deqTail s.queue.head))
  | .deqTail head =>
      if head = s.queue.tail then some (s.goto i .idle) else some (s.goto i (.deqSlot head))
  | .deqSlot head =>
      match s.queue.buffer (s.queue.masked head) with
      -- Another thread has cleared the slot and not yet moved `head_`.
      | none => some (s.goto i .idle)
      | some x => some (s.goto i (.deqClaim head x))
  | .deqClaim head x =>
      if s.queue.buffer (s.queue.masked head) = some x then
        some ({ s with queue := s.queue.store (s.queue.masked head) none }.goto i
          (.deqStore head x))
      else some (s.goto i .idle)
  | .deqStore head x =>
      some ({ s with queue := { s.queue with head := s.queue.next head },
                     delivered := s.delivered ++ [x] }.goto i .idle)

/-- One step of the system. Tasks given to `try_enqueue` are pairwise distinct. -/
def step (s : State ι α) : Action ι α → Option (State ι α)
  | .callEnqueue i x =>
      if s.pc i = .idle ∧ x ∉ s.issued then
        some ({ s with issued := s.issued ++ [x] }.goto i (.enqHead x))
      else none
  | .callDequeue i => if s.pc i = .idle then some (s.goto i .deqHead) else none
  | .access i => access s i
  | .spurious i =>
      match s.pc i with
      | .enqClaim _ _ | .deqClaim _ _ => some (s.goto i .idle)
      | _ => none

/-- An access after which only the thread is elsewhere: a load, or a claim that fails, spuriously or
not. -/
inductive Reads (q : LockFreeTaskQueue α) : Pc α → Pc α → Prop
  | enqHead {x : α} : Reads q (.enqHead x) (.enqTail x q.head)
  | full {x : α} {head : Nat} (full : q.next q.tail = q.masked head) :
      Reads q (.enqTail x head) .idle
  | enqTail {x : α} {head : Nat} (room : q.next q.tail ≠ q.masked head) :
      Reads q (.enqTail x head) (.enqClaim x q.tail)
  | enqClaimFails {x : α} {tail : Nat} : Reads q (.enqClaim x tail) .idle
  | deqHead : Reads q .deqHead (.deqTail q.head)
  | empty {head : Nat} (empty : head = q.tail) : Reads q (.deqTail head) .idle
  | deqTail {head : Nat} (nonempty : head ≠ q.tail) : Reads q (.deqTail head) (.deqSlot head)
  | vacated {head : Nat} (slot : q.buffer (q.masked head) = none) : Reads q (.deqSlot head) .idle
  | deqSlot {head : Nat} {x : α} (slot : q.buffer (q.masked head) = some x) :
      Reads q (.deqSlot head) (.deqClaim head x)
  | deqClaimFails {head : Nat} {x : α} : Reads q (.deqClaim head x) .idle

/-- What a step can do. -/
inductive Move (s : State ι α) : Action ι α → State ι α → Prop
  | callEnqueue {i : ι} {x : α} (idle : s.pc i = .idle) (fresh : x ∉ s.issued) :
      Move s (.callEnqueue i x) ({ s with issued := s.issued ++ [x] }.goto i (.enqHead x))
  | callDequeue {i : ι} (idle : s.pc i = .idle) : Move s (.callDequeue i) (s.goto i .deqHead)
  | reads {a : Action ι α} {i : ι} {pc : Pc α} (act : a = .access i ∨ a = .spurious i)
      (read : Reads s.queue (s.pc i) pc) : Move s a (s.goto i pc)
  | enqClaim {i : ι} {x : α} {tail : Nat} (old : s.pc i = .enqClaim x tail)
      (slot : s.queue.buffer tail = none) :
      Move s (.access i)
        ({ s with queue := s.queue.store tail (some x) }.goto i (.enqStore x tail))
  | enqStore {i : ι} {x : α} {tail : Nat} (old : s.pc i = .enqStore x tail) :
      Move s (.access i)
        ({ s with queue := { s.queue with tail := s.queue.next tail },
                  accepted := s.accepted ++ [x] }.goto i .idle)
  | deqClaim {i : ι} {head : Nat} {x : α} (old : s.pc i = .deqClaim head x)
      (slot : s.queue.buffer (s.queue.masked head) = some x) :
      Move s (.access i)
        ({ s with queue := s.queue.store (s.queue.masked head) none }.goto i (.deqStore head x))
  | deqStore {i : ι} {head : Nat} {x : α} (old : s.pc i = .deqStore head x) :
      Move s (.access i)
        ({ s with queue := { s.queue with head := s.queue.next head },
                  delivered := s.delivered ++ [x] }.goto i .idle)

namespace Move

variable {s t : State ι α} {i : ι}

omit [DecidableEq α] in
theorem of_read {pc pc' : Pc α} (old : s.pc i = pc) (h : some (s.goto i pc') = some t)
    (read : Reads s.queue pc pc') : Move s (.access i) t := by
  obtain rfl := Option.some.inj h
  exact .reads (.inl rfl) (old ▸ read)

theorem of_access (h : access s i = some t) : Move s (.access i) t := by
  unfold access at h
  split at h
  next => exact absurd h (by simp)
  next old => exact of_read old h .enqHead
  next old =>
    split at h
    next hfull => exact of_read old h (.full hfull)
    next hroom => exact of_read old h (.enqTail hroom)
  next old =>
    split at h
    next hslot =>
      obtain rfl := Option.some.inj h
      exact .enqClaim old hslot
    next => exact of_read old h .enqClaimFails
  next old =>
    obtain rfl := Option.some.inj h
    exact .enqStore old
  next old => exact of_read old h .deqHead
  next old =>
    split at h
    next hempty => exact of_read old h (.empty hempty)
    next hne => exact of_read old h (.deqTail hne)
  next old =>
    split at h
    next hslot => exact of_read old h (.vacated hslot)
    next hslot => exact of_read old h (.deqSlot hslot)
  next old =>
    split at h
    next hslot =>
      obtain rfl := Option.some.inj h
      exact .deqClaim old hslot
    next => exact of_read old h .deqClaimFails
  next old =>
    obtain rfl := Option.some.inj h
    exact .deqStore old

theorem of_step {a : Action ι α} (h : step s a = some t) : Move s a t := by
  cases a with
  | callEnqueue i x =>
    simp only [step] at h
    split at h
    next hcall =>
      obtain rfl := Option.some.inj h
      exact .callEnqueue hcall.1 hcall.2
    next => exact absurd h (by simp)
  | callDequeue i =>
    simp only [step] at h
    split at h
    next hidle =>
      obtain rfl := Option.some.inj h
      exact .callDequeue hidle
    next => exact absurd h (by simp)
  | access i => exact of_access h
  | spurious i =>
    simp only [step] at h
    split at h
    next old =>
      obtain rfl := Option.some.inj h
      exact .reads (.inr rfl) (old ▸ .enqClaimFails)
    next old =>
      obtain rfl := Option.some.inj h
      exact .reads (.inr rfl) (old ▸ .deqClaimFails)
    next => exact absurd h (by simp)

end Move

end

/-- What a successful claim relies on still holds when it is made: `head_` and `tail_` have not
moved under it, and the test it passed (not full, not empty) still comes out the same way. -/
def ClaimCurrent (q : LockFreeTaskQueue α) : Pc α → Prop
  | .enqClaim _ tail => q.buffer tail = none → tail = q.tail ∧ q.next tail ≠ q.head
  | .deqClaim head x => q.buffer (q.masked head) = some x → head = q.head ∧ q.head ≠ q.tail
  | _ => True

/-- The condition on a step: a claim that succeeds is current. -/
def Current (s : State ι α) : Action ι α → Prop
  | .access i => ClaimCurrent s.queue (s.pc i)
  | _ => True

instance [DecidableEq α] (q : LockFreeTaskQueue α) : (pc : Pc α) → Decidable (ClaimCurrent q pc)
  | .enqClaim _ _ | .deqClaim _ _ => inferInstanceAs (Decidable (_ → _ ∧ _))
  | .idle | .enqHead _ | .enqTail _ _ | .enqStore _ _ | .deqHead | .deqTail _ | .deqSlot _
  | .deqStore _ _ => .isTrue trivial

instance [DecidableEq α] (s : State ι α) : (a : Action ι α) → Decidable (Current s a)
  | .access i => inferInstanceAs (Decidable (ClaimCurrent s.queue (s.pc i)))
  | .callEnqueue _ _ | .callDequeue _ | .spurious _ => .isTrue trivial

end QueueRun
end NexusTask
