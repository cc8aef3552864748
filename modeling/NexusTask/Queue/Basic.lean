import NexusTask.Lib.RingBuffer

/-!
# `LockFreeTaskQueue`

The fields and the index arithmetic of `task_queue.hpp`. A slot of `buffer_` is a nullable
pointer, so it is an `Option`; `size_t` arithmetic is arithmetic modulo `2 ^ 64`, written out
where it can wrap (`capacity - 1` and `tail + 1` both can, for a capacity of 0).
-/

set_option autoImplicit false

namespace NexusTask

/-- `size_t` wraps here. -/
def sizeMax : Nat := 2 ^ 64

structure LockFreeTaskQueue (α : Type) where
  capacity : Nat
  mask : Nat
  buffer : Nat → Option α
  head : Nat
  tail : Nat

namespace LockFreeTaskQueue

variable {α : Type}

/-- The constructor: it throws unless `capacity & (capacity - 1)` is 0. -/
def new (capacity : Nat) : Except String (LockFreeTaskQueue α) :=
  let mask := (capacity + (sizeMax - 1)) % sizeMax
  if capacity &&& mask ≠ 0 then .error "Capacity must be power of 2"
  else .ok { capacity, mask, buffer := fun _ => none, head := 0, tail := 0 }

/-- `(i + 1) & mask_`. -/
def next (q : LockFreeTaskQueue α) (i : Nat) : Nat := (i + 1) % sizeMax &&& q.mask

/-- `i & mask_`. -/
def masked (q : LockFreeTaskQueue α) (i : Nat) : Nat := i &&& q.mask

def store (q : LockFreeTaskQueue α) (i : Nat) (v : Option α) : LockFreeTaskQueue α :=
  { q with buffer := Function.update q.buffer i v }

@[simp] theorem store_capacity (q : LockFreeTaskQueue α) (i : Nat) (v : Option α) :
    (q.store i v).capacity = q.capacity := rfl
@[simp] theorem store_mask (q : LockFreeTaskQueue α) (i : Nat) (v : Option α) :
    (q.store i v).mask = q.mask := rfl
@[simp] theorem store_head (q : LockFreeTaskQueue α) (i : Nat) (v : Option α) :
    (q.store i v).head = q.head := rfl
@[simp] theorem store_tail (q : LockFreeTaskQueue α) (i : Nat) (v : Option α) :
    (q.store i v).tail = q.tail := rfl
@[simp] theorem store_buffer (q : LockFreeTaskQueue α) (i : Nat) (v : Option α) :
    (q.store i v).buffer = Function.update q.buffer i v := rfl

/-- `try_enqueue` run without interruption. -/
def tryEnqueue (q : LockFreeTaskQueue α) (task : α) : Bool × LockFreeTaskQueue α :=
  if q.next q.tail = q.masked q.head then (false, q)
  else if q.buffer q.tail = none then
    (true, { q.store q.tail (some task) with tail := q.next q.tail })
  else (false, q)

/-- `try_dequeue` run without interruption. -/
def tryDequeue (q : LockFreeTaskQueue α) : Option α × LockFreeTaskQueue α :=
  if q.head = q.tail then (none, q)
  else match q.buffer (q.masked q.head) with
    | none => (none, q)
    | some task => (some task, { q.store (q.masked q.head) none with head := q.next q.head })

/-! ## The window `[head_, tail_)` -/

/-- How many slots the cyclic window holds. -/
def windowLength (q : LockFreeTaskQueue α) : Nat := RingBuffer.offset q.capacity q.head q.tail

/-- Slot `i` lies in the cyclic window `[head_, tail_)`. -/
def InWindow (q : LockFreeTaskQueue α) (i : Nat) : Prop :=
  RingBuffer.offset q.capacity q.head i < q.windowLength

instance (q : LockFreeTaskQueue α) (i : Nat) : Decidable (q.InWindow i) :=
  inferInstanceAs (Decidable (_ < _))

/-- The tasks in the slots of the window, from `head_` on. -/
def window (q : LockFreeTaskQueue α) : List α :=
  (List.range q.windowLength).filterMap fun k => q.buffer (RingBuffer.index q.capacity q.head k)

/-! ## A usable capacity -/

/-- The capacity is a power of two that a `size_t` holds, and the mask is the one the constructor
computes from it. -/
def PowerOfTwo (q : LockFreeTaskQueue α) : Prop :=
  ∃ k, k < 64 ∧ q.capacity = 2 ^ k ∧ q.mask = 2 ^ k - 1

/-- The capacity is a power of two that a `size_t` holds, at least 2, and the mask is the one the
constructor computes from it. -/
def Sized (q : LockFreeTaskQueue α) : Prop :=
  ∃ k, 1 ≤ k ∧ k < 64 ∧ q.capacity = 2 ^ k ∧ q.mask = 2 ^ k - 1

theorem two_pow_le_sizeMax {k : Nat} (hk : k < 64) : 2 ^ k < sizeMax :=
  Nat.pow_lt_pow_right (by omega) hk

theorem new_eq {k : Nat} (hk : k < 64) :
    new (2 ^ k) = .ok ({ capacity := 2 ^ k, mask := 2 ^ k - 1, buffer := fun _ => none,
                         head := 0, tail := 0 } : LockFreeTaskQueue α) := by
  have hpos : 0 < 2 ^ k := Nat.two_pow_pos k
  have hlt := two_pow_le_sizeMax hk
  have hmask : (2 ^ k + (sizeMax - 1)) % sizeMax = 2 ^ k - 1 := by
    have hsum : 2 ^ k + (sizeMax - 1) = (2 ^ k - 1) + sizeMax := by omega
    rw [hsum, Nat.add_mod_right, Nat.mod_eq_of_lt (by omega)]
  have hand : 2 ^ k &&& (2 ^ k - 1) = 0 := by
    rw [Nat.and_two_pow_sub_one_eq_mod, Nat.mod_self]
  simp [new, hmask, hand]

/-- Of the four slots one stays empty. -/
def fourSlots : LockFreeTaskQueue Nat :=
  { capacity := 4, mask := 3, buffer := fun _ => none, head := 0, tail := 0 }

theorem new_four : new 4 = .ok fourSlots := new_eq (k := 2) (by decide)

namespace PowerOfTwo

variable {q : LockFreeTaskQueue α}

theorem capacity_pos (hq : q.PowerOfTwo) : 0 < q.capacity := by
  obtain ⟨k, _, hc, _⟩ := hq
  exact hc ▸ Nat.two_pow_pos k

theorem capacity_lt (hq : q.PowerOfTwo) : q.capacity < sizeMax := by
  obtain ⟨k, hk, hc, _⟩ := hq
  exact hc ▸ two_pow_le_sizeMax hk

theorem masked (hq : q.PowerOfTwo) {i : Nat} (hi : i < q.capacity) : q.masked i = i := by
  obtain ⟨k, _, hc, hm⟩ := hq
  rw [LockFreeTaskQueue.masked, hm, RingBuffer.mask_index (hc ▸ hi)]

theorem next (hq : q.PowerOfTwo) {i : Nat} (hi : i < q.capacity) :
    q.next i = RingBuffer.advance q.capacity i := by
  obtain ⟨k, hk, hc, hm⟩ := hq
  have hlt := two_pow_le_sizeMax hk
  have hi' : i < 2 ^ k := hc ▸ hi
  rw [LockFreeTaskQueue.next, hm, hc, Nat.mod_eq_of_lt (by omega), RingBuffer.mask_succ hi']

end PowerOfTwo

namespace Sized

variable {q : LockFreeTaskQueue α}

theorem powerOfTwo (hq : q.Sized) : q.PowerOfTwo := by
  obtain ⟨k, _, hk, hc, hm⟩ := hq
  exact ⟨k, hk, hc, hm⟩

theorem capacity_pos (hq : q.Sized) : 0 < q.capacity := hq.powerOfTwo.capacity_pos

theorem two_le (hq : q.Sized) : 2 ≤ q.capacity := by
  obtain ⟨k, hk, _, hc, _⟩ := hq
  calc 2 = 2 ^ 1 := rfl
    _ ≤ 2 ^ k := Nat.pow_le_pow_right (by omega) hk
    _ = q.capacity := hc.symm

theorem masked (hq : q.Sized) {i : Nat} (hi : i < q.capacity) : q.masked i = i :=
  hq.powerOfTwo.masked hi

theorem next (hq : q.Sized) {i : Nat} (hi : i < q.capacity) :
    q.next i = RingBuffer.advance q.capacity i := hq.powerOfTwo.next hi

theorem next_lt (hq : q.Sized) {i : Nat} (hi : i < q.capacity) : q.next i < q.capacity := by
  rw [hq.next hi]
  exact RingBuffer.advance_lt hi

end Sized
end LockFreeTaskQueue
end NexusTask
