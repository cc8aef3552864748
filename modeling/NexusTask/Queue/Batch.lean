import Mathlib.Data.List.TakeWhile
import NexusTask.Queue.Sequential

/-!
# Batches and spurious failures

A `compare_exchange_weak` may fail although the slot holds what is expected: then `try_enqueue` and
`try_dequeue` give up as they do on a full and on an empty queue. Here each attempt comes with
whether that happens. `try_enqueue_batch` gives up at the first task that is not taken, and leaves
those before it in the queue.
-/

set_option autoImplicit false

namespace NexusTask
namespace LockFreeTaskQueue

variable {α : Type}

def tryEnqueueWeak (q : LockFreeTaskQueue α) (task : α) (spurious : Bool) :
    Bool × LockFreeTaskQueue α :=
  if q.next q.tail = q.masked q.head then (false, q)
  else if q.buffer q.tail = none ∧ spurious = false then
    (true, { q.store q.tail (some task) with tail := q.next q.tail })
  else (false, q)

def tryDequeueWeak (q : LockFreeTaskQueue α) (spurious : Bool) : Option α × LockFreeTaskQueue α :=
  if q.head = q.tail then (none, q)
  else match q.buffer (q.masked q.head) with
    | none => (none, q)
    | some task =>
        if spurious then (none, q)
        else (some task, { q.store (q.masked q.head) none with head := q.next q.head })

def tryEnqueueBatchWeak (q : LockFreeTaskQueue α) : List (α × Bool) → Bool × LockFreeTaskQueue α
  | [] => (true, q)
  | (task, spurious) :: tasks =>
      match q.tryEnqueueWeak task spurious with
      | (true, q') => q'.tryEnqueueBatchWeak tasks
      | (false, q') => (false, q')

def tryDequeueBatchWeak (q : LockFreeTaskQueue α) :
    List (Option α × Bool) → (Nat × List (Option α)) × LockFreeTaskQueue α
  | [] => ((0, []), q)
  | (slot, spurious) :: out =>
      match q.tryDequeueWeak spurious with
      | (none, q') => ((0, slot :: out.map Prod.fst), q')
      | (some task, q') =>
          let ((count, out'), q'') := q'.tryDequeueBatchWeak out
          ((count + 1, some task :: out'), q'')

/-- The calls that change the queue. -/
inductive Change (α : Type)
  | tryEnqueue (task : α) (spurious : Bool)
  | tryDequeue (spurious : Bool)
  | tryEnqueueBatch (tasks : List (α × Bool))
  | tryDequeueBatch (out : List (Option α × Bool))
  | clear

/-- The queue after a call: `none` if it does not return. -/
def change (q : LockFreeTaskQueue α) : Change α → Option (LockFreeTaskQueue α)
  | .tryEnqueue task spurious => some (q.tryEnqueueWeak task spurious).2
  | .tryDequeue spurious => some (q.tryDequeueWeak spurious).2
  | .tryEnqueueBatch tasks => some (q.tryEnqueueBatchWeak tasks).2
  | .tryDequeueBatch out => some (q.tryDequeueBatchWeak out).2
  | .clear => q.clear

/-- The queues that calls which do not overlap lead to, from a positive power of two as capacity. -/
inductive Reachable : LockFreeTaskQueue α → Prop
  | new {k : Nat} {q : LockFreeTaskQueue α} (hk : k < 64) (h : new (2 ^ k) = .ok q) : Reachable q
  | change {q q' : LockFreeTaskQueue α} (h : Reachable q) (c : Change α)
      (hc : q.change c = some q') : Reachable q'

/-! ## What is represented -/

theorem tryEnqueueWeak_eq (q : LockFreeTaskQueue α) (task : α) (spurious : Bool) :
    q.tryEnqueueWeak task spurious = if spurious then (false, q) else q.tryEnqueue task := by
  unfold tryEnqueueWeak tryEnqueue
  cases spurious <;> simp

theorem tryDequeueWeak_eq (q : LockFreeTaskQueue α) (spurious : Bool) :
    q.tryDequeueWeak spurious = if spurious then (none, q) else q.tryDequeue := by
  unfold tryDequeueWeak tryDequeue
  cases q.buffer (q.masked q.head) with
  | none => cases spurious <;> simp
  | some task => cases spurious <;> simp

namespace Represents

variable {q : LockFreeTaskQueue α} {xs : List α}

theorem window_eq (h : Represents q xs) : q.window = xs := by
  have hlength : q.windowLength = xs.length := by
    rw [windowLength, h.tail_eq, RingBuffer.offset_index h.holds.front_lt h.holds.length_lt]
  rw [window, hlength]
  exact h.holds.read

theorem tryEnqueueBatchWeak (h : Represents q xs) (ys : List (α × Bool)) :
    (q.tryEnqueueBatchWeak ys).1 = (BoundedFifo.pushAttempts (q.capacity - 1) xs ys).1 ∧
    Represents (q.tryEnqueueBatchWeak ys).2
      (BoundedFifo.pushAttempts (q.capacity - 1) xs ys).2 := by
  induction ys generalizing q xs with
  | nil => exact ⟨rfl, h⟩
  | cons y ys ih =>
    obtain ⟨y, spurious⟩ := y
    rw [LockFreeTaskQueue.tryEnqueueBatchWeak, BoundedFifo.pushAttempts, tryEnqueueWeak_eq]
    cases spurious with
    | true => exact ⟨rfl, h⟩
    | false =>
      obtain ⟨hflag, hcap, hrep⟩ := h.tryEnqueue (x := y)
      simp only [Bool.false_eq_true, if_false]
      revert hflag hcap hrep
      rcases q.tryEnqueue y with ⟨b, q'⟩
      rcases BoundedFifo.push (q.capacity - 1) xs y with ⟨b', xs'⟩
      rintro (rfl : b = b') (hcap : q'.capacity = q.capacity) (hrep : Represents q' xs')
      cases b with
      | false => exact ⟨rfl, hrep⟩
      | true =>
        have hrest := ih hrep
        rwa [hcap] at hrest

theorem tryDequeueBatchWeak (h : Represents q xs) (out : List (Option α × Bool)) :
    ∃ xs', Represents (q.tryDequeueBatchWeak out).2 xs' := by
  induction out generalizing q xs with
  | nil => exact ⟨xs, h⟩
  | cons slot out ih =>
    obtain ⟨slot, spurious⟩ := slot
    rw [LockFreeTaskQueue.tryDequeueBatchWeak, tryDequeueWeak_eq]
    cases spurious with
    | true => exact ⟨xs, h⟩
    | false =>
      obtain ⟨_, _, hrep⟩ := h.tryDequeue
      simp only [Bool.false_eq_true, if_false]
      generalize q.tryDequeue = r at hrep
      obtain ⟨x, q'⟩ := r
      cases x with
      | none => exact ⟨_, hrep⟩
      | some x => exact ih hrep

/-- A call leaves a list represented. -/
theorem change (h : Represents q xs) {q' : LockFreeTaskQueue α} {c : Change α}
    (hc : q.change c = some q') : ∃ xs', Represents q' xs' := by
  cases c with
  | tryEnqueue task spurious =>
    obtain rfl := Option.some.inj hc
    rw [tryEnqueueWeak_eq]
    cases spurious with
    | true => exact ⟨xs, h⟩
    | false => exact ⟨_, h.tryEnqueue.2.2⟩
  | tryDequeue spurious =>
    obtain rfl := Option.some.inj hc
    rw [tryDequeueWeak_eq]
    cases spurious with
    | true => exact ⟨xs, h⟩
    | false => exact ⟨_, h.tryDequeue.2.2⟩
  | tryEnqueueBatch tasks =>
    obtain rfl := Option.some.inj hc
    exact ⟨_, (h.tryEnqueueBatchWeak tasks).2⟩
  | tryDequeueBatch out =>
    obtain rfl := Option.some.inj hc
    exact h.tryDequeueBatchWeak out
  | clear =>
    obtain ⟨q'', hclear, _, hrep⟩ := h.clear
    obtain rfl := Option.some.inj (hclear.symm.trans hc)
    exact ⟨[], hrep⟩

end Represents

theorem Reachable.represents {q : LockFreeTaskQueue α} (h : Reachable q) :
    ∃ xs, Represents q xs := by
  induction h with
  | new hk hq =>
    obtain ⟨q', hq', _, hrep⟩ := new_represents (α := α) hk
    obtain rfl := Except.ok.inj (hq'.symm.trans hq)
    exact ⟨[], hrep⟩
  | change _ c hc ih =>
    obtain ⟨xs, hrep⟩ := ih
    exact hrep.change hc

/-! ## All or nothing -/

/-- A batch that is refused leaves the queue as it was, and one that is not is appended. -/
structure AllOrNothing (q : LockFreeTaskQueue α) (tasks : List (α × Bool)) : Prop where
  refused : (q.tryEnqueueBatchWeak tasks).1 = false → (q.tryEnqueueBatchWeak tasks).2 = q
  accepted : (q.tryEnqueueBatchWeak tasks).1 = true →
    (q.tryEnqueueBatchWeak tasks).2.window = q.window ++ tasks.map Prod.fst

/-- There is room for the whole batch and no attempt fails spuriously. -/
def AllFit (q : LockFreeTaskQueue α) (tasks : List (α × Bool)) : Prop :=
  q.size + tasks.length < q.capacity ∧ ∀ task ∈ tasks, task.2 = false

/-- Already the first attempt fails. -/
def NoneFits (q : LockFreeTaskQueue α) (tasks : List (α × Bool)) : Prop :=
  q.full = true ∨ ∃ task ∈ tasks.head?, task.2 = true

namespace Represents

variable {q : LockFreeTaskQueue α} {xs : List α} {tasks : List (α × Bool)}

theorem full_eq (h : Represents q xs) : q.full = true ↔ xs.length + 1 = q.capacity := by
  unfold full
  rw [beq_iff_eq]
  exact h.full_iff

/-- How many tasks of the batch get in. -/
theorem batch_eq (h : Represents q xs) (tasks : List (α × Bool)) :
    ∃ k, k = min (q.capacity - 1 - xs.length) (tasks.takeWhile fun task => !task.2).length ∧
      (q.tryEnqueueBatchWeak tasks).1 = decide (k = tasks.length) ∧
      Represents (q.tryEnqueueBatchWeak tasks).2 (xs ++ (tasks.take k).map Prod.fst) := by
  have hroom : xs.length ≤ q.capacity - 1 := Nat.le_sub_one_of_lt h.holds.length_lt
  obtain ⟨hflag, hrep⟩ := h.tryEnqueueBatchWeak tasks
  rw [BoundedFifo.pushAttempts_eq tasks hroom] at hflag hrep
  exact ⟨_, rfl, hflag, hrep⟩

theorem allOrNothing_of_allFit (h : Represents q xs) (hfit : AllFit q tasks) :
    AllOrNothing q tasks := by
  obtain ⟨hroom, hok⟩ := hfit
  obtain ⟨k, hk, hflag, hrep⟩ := h.batch_eq tasks
  have hall : k = tasks.length := by
    rw [h.size_eq] at hroom
    have hwhile : tasks.takeWhile (fun task => !task.2) = tasks := by
      apply List.takeWhile_eq_self_iff.mpr
      intro task htask
      simp [hok task htask]
    rw [hwhile] at hk
    omega
  subst hall
  refine ⟨?_, ?_⟩
  · intro hrefused
    rw [hflag] at hrefused
    exact absurd hrefused (by simp)
  · intro _
    rw [hrep.window_eq, h.window_eq, List.take_length]

end Represents

theorem allOrNothing_of_noneFits {q : LockFreeTaskQueue α} {tasks : List (α × Bool)}
    (h : NoneFits q tasks) : AllOrNothing q tasks := by
  cases tasks with
  | nil => exact ⟨fun _ => rfl, fun _ => (List.append_nil _).symm⟩
  | cons task tasks =>
    obtain ⟨task, spurious⟩ := task
    have hfails : q.tryEnqueueWeak task spurious = (false, q) := by
      rcases h with hfull | ⟨first, hfirst, hspurious⟩
      · exact if_pos (beq_iff_eq.mp hfull)
      · obtain rfl := Option.some.inj hfirst
        rw [tryEnqueueWeak_eq]
        exact if_pos hspurious
    have hbatch : q.tryEnqueueBatchWeak ((task, spurious) :: tasks) = (false, q) := by
      rw [tryEnqueueBatchWeak, hfails]
    refine ⟨?_, ?_⟩
    · intro _
      rw [hbatch]
    · intro haccepted
      rw [hbatch] at haccepted
      exact absurd haccepted (by simp)

/-- **A batch goes in as a whole or not at all exactly where it fits or its first task does not**:
otherwise the tasks before the first that is not taken stay in the queue. -/
theorem allOrNothing_iff {q : LockFreeTaskQueue α} (hq : Reachable q) (tasks : List (α × Bool)) :
    AllOrNothing q tasks ↔ AllFit q tasks ∨ NoneFits q tasks := by
  obtain ⟨xs, h⟩ := hq.represents
  constructor
  · intro hatomic
    obtain ⟨k, hk, hflag, hrep⟩ := h.batch_eq tasks
    have hlt := h.holds.length_lt
    have hle : (tasks.takeWhile fun task => !task.2).length ≤ tasks.length :=
      (List.takeWhile_prefix _).length_le
    by_cases hall : k = tasks.length
    · left
      refine ⟨?_, ?_⟩
      · rw [h.size_eq]
        omega
      · have hlength : (tasks.takeWhile fun task => !task.2).length = tasks.length :=
          Nat.le_antisymm hle (by omega)
        have hwhile := (List.takeWhile_prefix _).eq_of_length hlength
        intro task htask
        simpa using List.takeWhile_eq_self_iff.mp hwhile task htask
    · right
      -- Nothing may have been appended.
      have hsame := hatomic.refused (hflag.trans (decide_eq_false hall))
      rw [hsame] at hrep
      have hnil := List.append_right_eq_self.mp (hrep.window_eq.symm.trans h.window_eq)
      have hzero : k = 0 := by
        have hlength := congrArg List.length hnil
        rw [List.length_map, List.length_take, List.length_nil] at hlength
        omega
      rcases Nat.eq_zero_or_pos (q.capacity - 1 - xs.length) with hfull | hroom
      · exact .inl (h.full_eq.mpr (by omega))
      · right
        cases tasks with
        | nil => exact absurd hzero hall
        | cons task tasks =>
          refine ⟨task, rfl, ?_⟩
          by_contra hspurious
          rw [List.takeWhile_cons_of_pos (by simpa using hspurious), List.length_cons] at hk
          omega
  · rintro (hfit | hnone)
    · exact h.allOrNothing_of_allFit hfit
    · exact allOrNothing_of_noneFits hnone

theorem fourSlots_reachable : Reachable fourSlots := .new (k := 2) (by decide) new_four

theorem allOrNothing_iff_four :
    AllOrNothing fourSlots [(1, false), (2, false), (3, false), (4, false)] ↔
      AllFit fourSlots [(1, false), (2, false), (3, false), (4, false)] ∨
        NoneFits fourSlots [(1, false), (2, false), (3, false), (4, false)] :=
  allOrNothing_iff fourSlots_reachable _

/-- Three of four tasks get in. -/
theorem batch_of_four : ¬ ∀ (q : LockFreeTaskQueue Nat) (tasks : List (Nat × Bool)), Reachable q →
    AllOrNothing q tasks := by
  intro hall
  have hatomic :=
    hall fourSlots [(1, false), (2, false), (3, false), (4, false)] fourSlots_reachable
  have hsame := hatomic.refused (by decide)
  exact absurd (congrArg tail hsame) (by decide)

end LockFreeTaskQueue
end NexusTask
