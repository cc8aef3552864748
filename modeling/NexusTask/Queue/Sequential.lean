import NexusTask.Lib.BoundedFifo
import NexusTask.Lib.Object
import NexusTask.Queue.Basic

/-!
# The queue used by one thread at a time

With no two calls overlapping and no spurious failure, the ring of `capacity` slots is a list of at
most `capacity - 1` tasks: `Represents` is the representation, and each call is the operation of
`BoundedFifo` of the same name. `clear` is the one operation with a loop over slots; it starts
again at slot 0, so the representation moves.
-/

set_option autoImplicit false

namespace NexusTask
namespace LockFreeTaskQueue

open RingBuffer

variable {α : Type}

def tryEnqueueBatch (q : LockFreeTaskQueue α) : List α → Bool × LockFreeTaskQueue α
  | [] => (true, q)
  | task :: tasks =>
      match q.tryEnqueue task with
      | (true, q') => q'.tryEnqueueBatch tasks
      | (false, q') => (false, q')

/-- `out` is the span of pointers the caller passes. Returned are the count and the span afterwards.
-/
def tryDequeueBatch (q : LockFreeTaskQueue α) :
    List (Option α) → (Nat × List (Option α)) × LockFreeTaskQueue α
  | [] => ((0, []), q)
  | slot :: out =>
      match q.tryDequeue with
      | (none, q') => ((0, slot :: out), q')
      | (some task, q') =>
          let ((count, out'), q'') := q'.tryDequeueBatch out
          ((count + 1, some task :: out'), q'')

def empty (q : LockFreeTaskQueue α) : Bool := q.head == q.tail

def full (q : LockFreeTaskQueue α) : Bool := q.next q.tail == q.masked q.head

def size (q : LockFreeTaskQueue α) : Nat :=
  if q.tail ≥ q.head then q.tail - q.head
  else (q.capacity + (sizeMax - q.head) + q.tail) % sizeMax

/-- The loop of `clear`, from slot `head` on. The index is masked, so a loop that has gone through
`capacity` slots without meeting `tail` never meets it. -/
def clearSlots (tail : Nat) : Nat → LockFreeTaskQueue α → Nat → Option (LockFreeTaskQueue α)
  | fuel, q, head =>
      if head = tail then some q
      else match fuel with
        | 0 => none
        | fuel + 1 => clearSlots tail fuel (q.store head none) (q.next head)

def clear (q : LockFreeTaskQueue α) : Option (LockFreeTaskQueue α) :=
  (clearSlots q.tail q.capacity q q.head).map fun q => { q with head := 0, tail := 0 }

/-! ## Calls -/

inductive Call (α : Type)
  | tryEnqueue (task : α)
  | tryDequeue
  | tryEnqueueBatch (tasks : List α)
  | tryDequeueBatch (out : List (Option α))
  | clear
  | empty
  | full
  | size

inductive Reply (α : Type)
  | flag (b : Bool)
  | task (x : Option α)
  | batch (count : Nat) (out : List (Option α))
  | number (k : Nat)
  | done
  deriving DecidableEq

/-- One call of the queue: `none` if it does not return. -/
def call (q : LockFreeTaskQueue α) : Call α → Option (Reply α × LockFreeTaskQueue α)
  | .tryEnqueue x => let (b, q') := q.tryEnqueue x; some (.flag b, q')
  | .tryDequeue => let (x, q') := q.tryDequeue; some (.task x, q')
  | .tryEnqueueBatch xs => let (b, q') := q.tryEnqueueBatch xs; some (.flag b, q')
  | .tryDequeueBatch out =>
      let ((count, out'), q') := q.tryDequeueBatch out; some (.batch count out', q')
  | .clear => q.clear.map fun q' => (.done, q')
  | .empty => some (.flag q.empty, q)
  | .full => some (.flag q.full, q)
  | .size => some (.number q.size, q)

/-- The same call of a list of at most `bound` tasks. -/
def fifoCall (bound : Nat) (xs : List α) : Call α → Reply α × List α
  | .tryEnqueue x => let (b, xs') := BoundedFifo.push bound xs x; (.flag b, xs')
  | .tryDequeue => let (x, xs') := BoundedFifo.pop xs; (.task x, xs')
  | .tryEnqueueBatch ys => let (b, xs') := BoundedFifo.pushAll bound xs ys; (.flag b, xs')
  | .tryDequeueBatch out =>
      let ((count, out'), xs') := BoundedFifo.popInto xs out; (.batch count out', xs')
  | .clear => (.done, [])
  | .empty => (.flag xs.isEmpty, xs)
  | .full => (.flag (xs.length == bound), xs)
  | .size => (.number xs.length, xs)

/-! ## The representation -/

/-- The list lies in the ring from `head_` on, and `tail_` is the slot behind it. -/
structure Represents (q : LockFreeTaskQueue α) (xs : List α) : Prop where
  power : q.PowerOfTwo
  holds : Holds q.capacity q.head q.buffer xs
  tail_eq : q.tail = index q.capacity q.head xs.length

namespace Represents

variable {q : LockFreeTaskQueue α} {xs : List α} {x : α}

theorem tail_lt (h : Represents q xs) : q.tail < q.capacity :=
  h.tail_eq ▸ index_lt h.holds.front_lt h.holds.length_lt

theorem masked_head (h : Represents q xs) : q.masked q.head = q.head :=
  h.power.masked h.holds.front_lt

/-- The fullness test sees that one slot is left. -/
theorem full_iff (h : Represents q xs) :
    q.next q.tail = q.masked q.head ↔ xs.length + 1 = q.capacity := by
  rw [h.power.next h.tail_lt, h.masked_head, h.tail_eq]
  exact advance_index_eq_front_iff h.holds.front_lt h.holds.length_lt

theorem empty_iff (h : Represents q xs) : q.head = q.tail ↔ xs = [] := by
  rw [eq_comm, h.tail_eq, index_eq_front_iff h.holds.front_lt h.holds.length_lt]
  exact List.length_eq_zero_iff

theorem tryEnqueue (h : Represents q xs) :
    (q.tryEnqueue x).1 = (BoundedFifo.push (q.capacity - 1) xs x).1 ∧
    (q.tryEnqueue x).2.capacity = q.capacity ∧
    Represents (q.tryEnqueue x).2 (BoundedFifo.push (q.capacity - 1) xs x).2 := by
  have hlen := h.holds.length_lt
  have hslot : q.buffer q.tail = none := h.tail_eq ▸ h.holds.get_back
  unfold LockFreeTaskQueue.tryEnqueue BoundedFifo.push
  by_cases hfull : xs.length + 1 = q.capacity
  · rw [if_pos (h.full_iff.mpr hfull), if_neg (by omega)]
    exact ⟨rfl, rfl, h⟩
  · rw [if_neg (fun he => hfull (h.full_iff.mp he)), if_pos hslot, if_pos (by omega)]
    refine ⟨rfl, rfl, h.power, ?_, ?_⟩
    · show Holds q.capacity q.head (Function.update q.buffer q.tail (some x)) (xs ++ [x])
      rw [h.tail_eq]
      exact h.holds.push (by omega)
    · show q.next q.tail = index q.capacity q.head (xs ++ [x]).length
      rw [h.power.next h.tail_lt, h.tail_eq, List.length_append, List.length_singleton,
        index_succ h.holds.front_lt hlen]

theorem tryDequeue (h : Represents q xs) :
    q.tryDequeue.1 = (BoundedFifo.pop xs).1 ∧ q.tryDequeue.2.capacity = q.capacity ∧
    Represents q.tryDequeue.2 (BoundedFifo.pop xs).2 := by
  unfold LockFreeTaskQueue.tryDequeue
  cases xs with
  | nil =>
    rw [if_pos (h.empty_iff.mpr rfl)]
    exact ⟨rfl, rfl, h⟩
  | cons x xs =>
    have hne : q.head ≠ q.tail := fun he => List.cons_ne_nil x xs (h.empty_iff.mp he)
    have hslot : q.buffer q.head = some x := h.holds.get_front
    have hlen := h.holds.length_lt
    rw [List.length_cons] at hlen
    rw [if_neg hne, h.masked_head, hslot]
    refine ⟨rfl, rfl, h.power, ?_, ?_⟩
    · show Holds q.capacity (q.next q.head) (Function.update q.buffer q.head none) xs
      rw [h.power.next h.holds.front_lt]
      exact h.holds.pop
    · show q.tail = index q.capacity (q.next q.head) xs.length
      rw [h.power.next h.holds.front_lt, index_advance h.holds.front_lt hlen, h.tail_eq]
      rfl

theorem tryEnqueueBatch (h : Represents q xs) (ys : List α) :
    (q.tryEnqueueBatch ys).1 = (BoundedFifo.pushAll (q.capacity - 1) xs ys).1 ∧
    (q.tryEnqueueBatch ys).2.capacity = q.capacity ∧
    Represents (q.tryEnqueueBatch ys).2 (BoundedFifo.pushAll (q.capacity - 1) xs ys).2 := by
  induction ys generalizing q xs with
  | nil => exact ⟨rfl, rfl, h⟩
  | cons y ys ih =>
    obtain ⟨hflag, hcap, hrep⟩ := h.tryEnqueue (x := y)
    unfold LockFreeTaskQueue.tryEnqueueBatch BoundedFifo.pushAll
    revert hflag hcap hrep
    rcases q.tryEnqueue y with ⟨b, q'⟩
    rcases BoundedFifo.push (q.capacity - 1) xs y with ⟨b', xs'⟩
    rintro (rfl : b = b') (hcap : q'.capacity = q.capacity) (hrep : Represents q' xs')
    cases b with
    | false => exact ⟨rfl, hcap, hrep⟩
    | true =>
      obtain ⟨hflag, hcap', hrep'⟩ := ih hrep
      rw [hcap] at hflag hcap' hrep'
      exact ⟨hflag, hcap', hrep'⟩

theorem tryDequeueBatch (h : Represents q xs) (out : List (Option α)) :
    (q.tryDequeueBatch out).1 = (BoundedFifo.popInto xs out).1 ∧
    (q.tryDequeueBatch out).2.capacity = q.capacity ∧
    Represents (q.tryDequeueBatch out).2 (BoundedFifo.popInto xs out).2 := by
  induction out generalizing q xs with
  | nil => exact ⟨rfl, rfl, h⟩
  | cons slot out ih =>
    obtain ⟨htask, hcap, hrep⟩ := h.tryDequeue
    unfold LockFreeTaskQueue.tryDequeueBatch BoundedFifo.popInto
    revert htask hcap hrep
    rcases q.tryDequeue with ⟨x, q'⟩
    rcases BoundedFifo.pop xs with ⟨x', xs'⟩
    rintro (rfl : x = x') (hcap : q'.capacity = q.capacity) (hrep : Represents q' xs')
    cases x with
    | none => exact ⟨rfl, hcap, hrep⟩
    | some x =>
      obtain ⟨hcount, hcap', hrep'⟩ := ih hrep
      refine ⟨?_, hcap'.trans hcap, hrep'⟩
      exact congrArg (fun r : Nat × List (Option α) => (r.1 + 1, some x :: r.2)) hcount

theorem size_eq (h : Represents q xs) : q.size = xs.length := by
  have hoff : offset q.capacity q.head q.tail = xs.length := by
    rw [h.tail_eq, offset_index h.holds.front_lt h.holds.length_lt]
  have hhead := h.holds.front_lt
  have hlt := h.power.capacity_lt
  rw [← hoff]
  unfold LockFreeTaskQueue.size offset
  split
  next => rfl
  next hle =>
    -- `capacity_ - head_` does not wrap, and the sum stays below `capacity_`.
    have hsum : q.capacity + (sizeMax - q.head) + q.tail
        = (q.tail + q.capacity - q.head) + sizeMax := by omega
    rw [hsum, Nat.add_mod_right, Nat.mod_eq_of_lt (by omega)]

/-- The loop of `clear` vacates the list slot by slot and stops at `tail_`. -/
theorem clearSlots (hp : q.PowerOfTwo) {head : Nat} (hh : Holds q.capacity head q.buffer xs)
    {fuel : Nat} (hfuel : xs.length ≤ fuel) :
    ∃ q', LockFreeTaskQueue.clearSlots (index q.capacity head xs.length) fuel q head = some q' ∧
      q'.capacity = q.capacity ∧ q'.mask = q.mask ∧ ∀ i, i < q.capacity → q'.buffer i = none := by
  induction xs generalizing q head fuel with
  | nil =>
    have hend : head = index q.capacity head ([] : List α).length := (index_zero hh.front_lt).symm
    refine ⟨q, ?_, rfl, rfl, fun i hi => by rw [hh.slot i hi]; rfl⟩
    unfold LockFreeTaskQueue.clearSlots
    exact if_pos hend
  | cons x xs ih =>
    have hlen := hh.length_lt
    rw [List.length_cons] at hlen
    have hne : head ≠ index q.capacity head (x :: xs).length := fun he =>
      absurd ((index_eq_front_iff hh.front_lt hh.length_lt).mp he.symm) (Nat.succ_ne_zero _)
    have hend : index q.capacity head (x :: xs).length
        = index q.capacity (advance q.capacity head) xs.length :=
      (index_advance hh.front_lt hlen).symm
    cases fuel with
    | zero => exact absurd hfuel (Nat.not_succ_le_zero _)
    | succ fuel =>
      obtain ⟨q', hq', hcap, hmask, hslots⟩ := ih (q := q.store head none) hp hh.pop
        (Nat.le_of_succ_le_succ hfuel)
      refine ⟨q', ?_, hcap, hmask, hslots⟩
      unfold LockFreeTaskQueue.clearSlots
      rw [if_neg hne, hend, hp.next hh.front_lt]
      exact hq'

theorem clear (h : Represents q xs) :
    ∃ q', q.clear = some q' ∧ q'.capacity = q.capacity ∧ Represents q' [] := by
  obtain ⟨q', hq', hcap, hmask, hslots⟩ :=
    clearSlots h.power h.holds (Nat.le_of_lt h.holds.length_lt)
  have hpos := h.power.capacity_pos
  refine ⟨{ q' with head := 0, tail := 0 }, ?_, hcap, ?_, ?_, ?_⟩
  · unfold LockFreeTaskQueue.clear
    rw [h.tail_eq, hq']
    rfl
  · obtain ⟨k, hk, hc, hm⟩ := h.power
    exact ⟨k, hk, hcap.trans hc, hmask.trans hm⟩
  · refine ⟨hcap ▸ hpos, hcap ▸ hpos, fun i hi => ?_⟩
    rw [List.getElem?_nil]
    exact hslots i (hcap ▸ hi)
  · exact (index_zero (hcap ▸ hpos)).symm

end Represents

/-- The constructor's queue represents the empty list. -/
theorem new_represents {k : Nat} (hk : k < 64) :
    ∃ q, (new (2 ^ k) : Except String (LockFreeTaskQueue α)) = .ok q ∧ q.capacity = 2 ^ k ∧
      Represents q [] := by
  have hpos := Nat.two_pow_pos k
  exact ⟨_, new_eq hk, rfl, ⟨k, hk, rfl, rfl⟩, .empty hpos, (index_zero hpos).symm⟩

/-- Each call is the list operation of its name. -/
theorem call_simulates (cap : Nat) :
    Object.Simulates (fun (q : LockFreeTaskQueue α) xs => q.capacity = cap ∧ Represents q xs)
      call (fifoCall (cap - 1)) := by
  rintro q xs c ⟨rfl, h⟩
  cases c with
  | tryEnqueue x =>
    obtain ⟨hflag, hcap, hrep⟩ := h.tryEnqueue (x := x)
    exact ⟨_, congrArg (fun b => some (Reply.flag b, (q.tryEnqueue x).2)) hflag, hcap, hrep⟩
  | tryDequeue =>
    obtain ⟨htask, hcap, hrep⟩ := h.tryDequeue
    exact ⟨_, congrArg (fun y => some (Reply.task y, q.tryDequeue.2)) htask, hcap, hrep⟩
  | tryEnqueueBatch ys =>
    obtain ⟨hflag, hcap, hrep⟩ := h.tryEnqueueBatch ys
    exact ⟨_, congrArg (fun b => some (Reply.flag b, (q.tryEnqueueBatch ys).2)) hflag, hcap, hrep⟩
  | tryDequeueBatch out =>
    obtain ⟨hbatch, hcap, hrep⟩ := h.tryDequeueBatch out
    exact ⟨_, congrArg (fun r : Nat × List (Option α) =>
      some (Reply.batch r.1 r.2, (q.tryDequeueBatch out).2)) hbatch, hcap, hrep⟩
  | clear =>
    obtain ⟨q', hq', hcap, hrep⟩ := h.clear
    refine ⟨q', ?_, hcap, hrep⟩
    show q.clear.map _ = _
    rw [hq']
    rfl
  | empty =>
    refine ⟨q, ?_, rfl, h⟩
    have hempty : q.empty = xs.isEmpty := by
      rw [Bool.eq_iff_iff, LockFreeTaskQueue.empty, beq_iff_eq, List.isEmpty_iff]
      exact h.empty_iff
    exact congrArg (fun b => some (Reply.flag b, q)) hempty
  | full =>
    refine ⟨q, ?_, rfl, h⟩
    have hpos := h.power.capacity_pos
    have hfull : q.full = (xs.length == q.capacity - 1) := by
      rw [Bool.eq_iff_iff, LockFreeTaskQueue.full, beq_iff_eq, beq_iff_eq, h.full_iff]
      omega
    exact congrArg (fun b => some (Reply.flag b, q)) hfull
  | size =>
    exact ⟨q, congrArg (fun k => some (Reply.number k, q)) h.size_eq, rfl, h⟩

theorem fifoCall_length_le {bound : Nat} (xs : List α) (c : Call α) (h : xs.length ≤ bound) :
    (fifoCall bound xs c).2.length ≤ bound := by
  cases c with
  | tryEnqueue x => exact BoundedFifo.push_length_le h
  | tryDequeue => exact BoundedFifo.pop_length_le h
  | tryEnqueueBatch ys => exact BoundedFifo.pushAll_length_le ys h
  | tryDequeueBatch out => exact BoundedFifo.popInto_length_le out h
  | clear => exact Nat.zero_le _
  | empty | full | size => exact h

/-- **The queue refines a bounded list.** From its construction on, for every capacity and every
sequence of calls, each call returns what the list of at most `capacity - 1` tasks returns, and the
ring represents that list afterwards. -/
theorem refines_bounded_fifo (k : Fin 64) (calls : List (Call α)) :
    ∃ q q', new (2 ^ k.val) = .ok q ∧
      Object.serve call q calls
        = some ((Object.replies (fifoCall (2 ^ k.val - 1)) [] calls).1, q') ∧
      Represents q' (Object.replies (fifoCall (2 ^ k.val - 1)) [] calls).2 ∧
      (Object.replies (fifoCall (2 ^ k.val - 1)) ([] : List α) calls).2.length ≤ 2 ^ k.val - 1 := by
  obtain ⟨q, hnew, hcap, hrep⟩ := new_represents (α := α) k.isLt
  obtain ⟨q', hserve, _, hrep'⟩ := (call_simulates (2 ^ k.val)).serve ⟨hcap, hrep⟩ calls
  exact ⟨q, q', hnew, hserve, hrep',
    Object.replies_preserves (fun xs c => fifoCall_length_le xs c) (Nat.zero_le _) calls⟩

end LockFreeTaskQueue
end NexusTask
