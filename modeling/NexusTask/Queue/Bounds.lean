import NexusTask.Queue.Steps

/-!
# The bounds of the buffer

`try_enqueue` and `clear` access the slot that `tail_` and `head_` name, and `try_dequeue` masks the
index. Here any thread may call any of the three at any time. Whatever the threads do, an index is 0
or has been masked, and the mask is below the capacity, unless the capacity is 0: the constructor
takes 0 for a power of two.
-/

set_option autoImplicit false

namespace NexusTask
namespace ClearRun

open Transition
open QueueRun (Pc Reads Move access)

variable {ι α : Type}

/-- Where a thread is in `clear`. -/
inductive ClearPc
  | loadHead
  | loadTail (head : Nat)
  /-- `buffer_[head].store(nullptr)`; then `head` moves on. -/
  | storeSlot (head tail : Nat)
  | storeHead
  | storeTail
  deriving DecidableEq

/-- The loop of `clear` is at `head != tail`. -/
def ClearPc.test (head tail : Nat) : ClearPc :=
  if head = tail then .storeHead else .storeSlot head tail

/-- The threads in `try_enqueue` and `try_dequeue`, and those in `clear`. -/
structure State (ι α : Type) where
  run : QueueRun.State ι α
  clearing : ι → Option ClearPc

inductive Action (ι α : Type)
  | callEnqueue (i : ι) (task : α)
  | callDequeue (i : ι)
  | callClear (i : ι)
  /-- The next access of thread `i`. -/
  | access (i : ι)
  /-- The `compare_exchange_weak` thread `i` is at fails although the value matches. -/
  | spurious (i : ι)

namespace State

variable (s : State ι α)

def queue : LockFreeTaskQueue α := s.run.queue

def Idle (i : ι) : Prop := s.run.pc i = .idle ∧ s.clearing i = none

instance [DecidableEq α] (i : ι) : Decidable (s.Idle i) :=
  inferInstanceAs (Decidable (_ ∧ _))

/-- The index into `buffer_` that the next access of thread `i` uses, if it is one to a slot. -/
def index (i : ι) : Option Nat :=
  match s.clearing i with
  | some (.storeSlot head _) => some head
  | some _ => none
  | none =>
      match s.run.pc i with
      | .enqClaim _ tail => some tail
      | .deqSlot head | .deqClaim head _ => some (s.queue.masked head)
      | _ => none

/-- Every access to a slot is to one that exists, and `head_` and `tail_` are slots. -/
structure InBounds : Prop where
  head : s.queue.head < s.queue.capacity
  tail : s.queue.tail < s.queue.capacity
  index : ∀ i k, s.index i = some k → k < s.queue.capacity

end State

def start (ι : Type) {α : Type} (q : LockFreeTaskQueue α) : State ι α :=
  { run := QueueRun.start ι q, clearing := fun _ => none }

section
variable [DecidableEq ι]

def State.setQueue (s : State ι α) (q : LockFreeTaskQueue α) : State ι α :=
  { s with run := { s.run with queue := q } }

def State.goto (s : State ι α) (i : ι) (pc : Option ClearPc) : State ι α :=
  { s with clearing := Function.update s.clearing i pc }

/-- The next access of a `clear`. -/
def clearAccess (s : State ι α) (i : ι) : ClearPc → State ι α
  | .loadHead => s.goto i (some (.loadTail s.queue.head))
  | .loadTail head => s.goto i (some (.test head s.queue.tail))
  | .storeSlot head tail =>
      (s.setQueue (s.queue.store head none)).goto i (some (.test (s.queue.next head) tail))
  | .storeHead => (s.setQueue { s.queue with head := 0 }).goto i (some .storeTail)
  | .storeTail => (s.setQueue { s.queue with tail := 0 }).goto i none

variable [DecidableEq α]

def step (s : State ι α) : Action ι α → Option (State ι α)
  | .callEnqueue i x =>
      if s.Idle i then some { s with run := s.run.goto i (.enqHead x) } else none
  | .callDequeue i => if s.Idle i then some { s with run := s.run.goto i .deqHead } else none
  | .callClear i => if s.Idle i then some (s.goto i (some .loadHead)) else none
  | .access i =>
      match s.clearing i with
      | some pc => some (clearAccess s i pc)
      | none => (access s.run i).map fun run => { s with run }
  | .spurious i => (QueueRun.step s.run (.spurious i)).map fun run => { s with run }

end

/-! ## What stays below the capacity -/

/-- The `tail` a `try_enqueue` has read. -/
def PcWithin (cap : Nat) : Pc α → Prop
  | .enqClaim _ tail => tail < cap
  | _ => True

/-- The `head` a `clear` has read or moved on to. -/
def ClearWithin (cap : Nat) : ClearPc → Prop
  | .loadTail head | .storeSlot head _ => head < cap
  | _ => True

structure Within (cap : Nat) (s : QueueRun.State ι α) : Prop where
  capacity : s.queue.capacity = cap
  mask : s.queue.mask < cap
  head : s.queue.head < cap
  tail : s.queue.tail < cap
  pc : ∀ i, PcWithin cap (s.pc i)

structure Confined (cap : Nat) (s : State ι α) : Prop where
  run : Within cap s.run
  clearing : ∀ i pc, s.clearing i = some pc → ClearWithin cap pc

namespace Within

variable {cap : Nat} {s t : QueueRun.State ι α}

theorem next_lt (h : Within cap s) (k : Nat) : s.queue.next k < cap :=
  Nat.lt_of_le_of_lt Nat.and_le_right h.mask

theorem masked_lt (h : Within cap s) (k : Nat) : s.queue.masked k < cap :=
  Nat.lt_of_le_of_lt Nat.and_le_right h.mask

/-- A store to a slot, to `head_` or to `tail_`. -/
theorem stored (h : Within cap s) (hcap : t.queue.capacity = s.queue.capacity)
    (hmask : t.queue.mask = s.queue.mask) (hhead : t.queue.head < cap) (htail : t.queue.tail < cap)
    (hpc : t.pc = s.pc) : Within cap t where
  capacity := hcap.trans h.capacity
  mask := hmask ▸ h.mask
  head := hhead
  tail := htail
  pc i := hpc ▸ h.pc i

/-- Only `tail_` is ever read to be used as an index as it is. -/
theorem read (h : Within cap s) {pc pc' : Pc α} (hread : Reads s.queue pc pc') :
    PcWithin cap pc' := by
  cases hread with
  | enqTail _ => exact h.tail
  | enqHead | full _ | enqClaimFails | deqHead | empty _ | deqTail _ | vacated _ | deqSlot _
  | deqClaimFails => trivial

variable [DecidableEq ι]

theorem goto (h : Within cap s) {i : ι} {pc : Pc α} (hpc : PcWithin cap pc) :
    Within cap (s.goto i pc) where
  capacity := h.capacity
  mask := h.mask
  head := h.head
  tail := h.tail
  pc j := by
    by_cases hj : j = i
    · subst hj
      rw [QueueRun.State.goto_pc_self]
      exact hpc
    · rw [QueueRun.State.goto_pc_of_ne hj]
      exact h.pc j

theorem move {a : QueueRun.Action ι α} (h : Within cap s) (hm : Move s a t) : Within cap t := by
  cases hm with
  | callEnqueue _ _ =>
    refine goto ?_ trivial
    exact h.stored rfl rfl h.head h.tail rfl
  | callDequeue _ => exact h.goto trivial
  | reads _ read => exact h.goto (h.read read)
  | enqClaim _ _ | deqClaim _ _ =>
    refine goto ?_ trivial
    exact h.stored rfl rfl h.head h.tail rfl
  | @enqStore _ _ tail _ =>
    refine goto ?_ trivial
    exact h.stored rfl rfl h.head (h.next_lt tail) rfl
  | @deqStore _ head _ _ =>
    refine goto ?_ trivial
    exact h.stored rfl rfl (h.next_lt head) h.tail rfl

end Within

namespace Confined

variable {cap : Nat} {s t : State ι α}

theorem inBounds (h : Confined cap s) : s.InBounds := by
  have hcap : s.queue.capacity = cap := h.run.capacity
  refine ⟨hcap ▸ h.run.head, hcap ▸ h.run.tail, ?_⟩
  intro i k hk
  rw [hcap]
  unfold State.index at hk
  split at hk
  next head tail hclear =>
    obtain rfl := Option.some.inj hk
    exact h.clearing i _ hclear
  next => exact absurd hk (by simp)
  next =>
    have hpc := h.run.pc i
    split at hk
    next x tail hclaim =>
      obtain rfl := Option.some.inj hk
      rw [hclaim] at hpc
      exact hpc
    next => exact Option.some.inj hk ▸ h.run.masked_lt _
    next => exact Option.some.inj hk ▸ h.run.masked_lt _
    next => exact absurd hk (by simp)

variable [DecidableEq ι]

theorem goto (h : Confined cap s) {i : ι} {pc : Option ClearPc}
    (hpc : ∀ pc' ∈ pc, ClearWithin cap pc') : Confined cap (s.goto i pc) where
  run := h.run
  clearing j pc' hj := by
    change Function.update s.clearing i pc j = some pc' at hj
    by_cases hji : j = i
    · subst hji
      rw [Function.update_self] at hj
      exact hpc pc' hj
    · rw [Function.update_of_ne hji] at hj
      exact h.clearing j pc' hj

omit [DecidableEq ι] in
theorem setQueue (h : Confined cap s) {q : LockFreeTaskQueue α}
    (hcap : q.capacity = s.queue.capacity) (hmask : q.mask = s.queue.mask) (hhead : q.head < cap)
    (htail : q.tail < cap) : Confined cap (s.setQueue q) where
  run := h.run.stored hcap hmask hhead htail rfl
  clearing := h.clearing

theorem test {head tail : Nat} (h : head < cap) : ClearWithin cap (.test head tail) := by
  unfold ClearPc.test
  split
  next => trivial
  next => exact h

theorem clearAccess (h : Confined cap s) {i : ι} {pc : ClearPc} (hpc : s.clearing i = some pc) :
    Confined cap (clearAccess s i pc) := by
  have hin := h.clearing i pc hpc
  have hpos : 0 < cap := Nat.zero_lt_of_lt h.run.head
  cases pc with
  | loadHead => exact h.goto (by rintro _ ⟨⟩; exact h.run.head)
  | loadTail head => exact h.goto (by rintro _ ⟨⟩; exact test hin)
  | storeSlot head tail =>
    have hstored := h.setQueue (q := s.queue.store head none) rfl rfl h.run.head h.run.tail
    exact hstored.goto (by rintro _ ⟨⟩; exact test (h.run.next_lt head))
  | storeHead =>
    have hstored := h.setQueue (q := { s.queue with head := 0 }) rfl rfl hpos h.run.tail
    exact hstored.goto (by rintro _ ⟨⟩; trivial)
  | storeTail =>
    have hstored := h.setQueue (q := { s.queue with tail := 0 }) rfl rfl h.run.head hpos
    exact hstored.goto (by simp)

variable [DecidableEq α]

theorem step {a : Action ι α} (h : Confined cap s) (hstep : step s a = some t) :
    Confined cap t := by
  cases a with
  | callEnqueue i x =>
    simp only [ClearRun.step] at hstep
    split at hstep
    next => exact Option.some.inj hstep ▸ ⟨h.run.goto trivial, h.clearing⟩
    next => exact absurd hstep (by simp)
  | callDequeue i =>
    simp only [ClearRun.step] at hstep
    split at hstep
    next => exact Option.some.inj hstep ▸ ⟨h.run.goto trivial, h.clearing⟩
    next => exact absurd hstep (by simp)
  | callClear i =>
    simp only [ClearRun.step] at hstep
    split at hstep
    next => exact Option.some.inj hstep ▸ h.goto (by rintro _ ⟨⟩; trivial)
    next => exact absurd hstep (by simp)
  | access i =>
    simp only [ClearRun.step] at hstep
    split at hstep
    next pc hpc => exact Option.some.inj hstep ▸ h.clearAccess hpc
    next =>
      obtain ⟨run, hrun, rfl⟩ := Option.map_eq_some_iff.mp hstep
      exact ⟨h.run.move (.of_access hrun), h.clearing⟩
  | spurious i =>
    obtain ⟨run, hrun, rfl⟩ := Option.map_eq_some_iff.mp hstep
    exact ⟨h.run.move (.of_step hrun), h.clearing⟩

end Confined

/-- The mask of a positive capacity is the number below it, be it a power of two or not. -/
theorem confined_start {capacity : Nat} {q : LockFreeTaskQueue α}
    (hnew : LockFreeTaskQueue.new capacity = .ok q) (hpos : 0 < capacity)
    (hlt : capacity < sizeMax) : Confined capacity (start ι q) := by
  have hmask : (capacity + (sizeMax - 1)) % sizeMax < capacity := by
    have hsum : capacity + (sizeMax - 1) = capacity - 1 + sizeMax := by
      unfold sizeMax
      omega
    rw [hsum, Nat.add_mod_right, Nat.mod_eq_of_lt (by omega)]
    omega
  unfold LockFreeTaskQueue.new at hnew
  dsimp only at hnew
  split at hnew
  next => cases hnew
  next =>
    cases hnew
    exact ⟨⟨rfl, hmask, hpos, hpos, fun _ => trivial⟩, fun _ _ h => absurd h (by simp [start])⟩

/-- **No access leaves the buffer exactly if there is a buffer.** The capacity may be any that the
constructor takes. -/
theorem inBounds_iff (ι : Type) [DecidableEq ι] [DecidableEq α] {capacity : Nat}
    {q : LockFreeTaskQueue α} (hlt : capacity < sizeMax)
    (hnew : LockFreeTaskQueue.new capacity = .ok q) :
    (∀ as s, Run step free (start ι q) as s → s.InBounds) ↔ capacity ≠ 0 := by
  constructor
  · intro hall hzero
    subst hzero
    have hbounds := hall [] (start ι q) .nil
    have hcapacity : q.capacity = 0 := by
      cases hnew
      rfl
    have hhead := hbounds.head
    exact absurd (hcapacity ▸ hhead : _ < 0) (Nat.not_lt_zero _)
  · intro hpos as s run
    have hpreserved : Preserved (step (ι := ι) (α := α)) free (Confined capacity) :=
      fun _ _ _ h _ hstep => h.step hstep
    have hstart := confined_start (ι := ι) hnew (Nat.pos_of_ne_zero hpos) hlt
    have hend := run.invariant hpreserved hstart
    exact hend.inBounds

theorem inBounds_iff_four : (∀ as s, Run step free (start Unit LockFreeTaskQueue.fourSlots) as s →
    s.InBounds) ↔ 4 ≠ 0 :=
  inBounds_iff Unit (by decide) LockFreeTaskQueue.new_four

/-- What the constructor makes of a capacity of 0. -/
def noSlots : LockFreeTaskQueue Nat :=
  { capacity := 0, mask := sizeMax - 1, buffer := fun _ => none, head := 0, tail := 0 }

/-- `try_enqueue` does not find the queue without slots full, and goes on to slot 0. -/
theorem noSlots_accessed : ¬ ∀ (capacity : Nat) (q : LockFreeTaskQueue Nat), capacity < sizeMax →
    LockFreeTaskQueue.new capacity = .ok q →
      ∀ as s, Run step free (start Unit q) as s → s.InBounds := by
  intro hall
  have hbounds := hall 0 noSlots (by decide) rfl [.callEnqueue () 10, .access (), .access ()] _
    (.of_isSome (by decide))
  have hindex := hbounds.index () 0 (by decide)
  exact absurd hindex (by decide)

end ClearRun
end NexusTask
