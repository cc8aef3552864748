import Mathlib.Data.List.FinRange
import NexusTask.Task

/-!
# The queues of the pool

A pool of `n` workers has a `PriorityQueueSet` for each worker and a global one, and each set a
queue for each of the four priorities. An operation on one of these queues is one step of the
pool's threads, and there it behaves as a bounded first-in first-out list; a ring of capacity `c`
holds `c - 1` tasks.

That leaves out what racing operations do to a ring: `try_enqueue` also fails when it loses a race,
and a claim on a slot that was read too early strands a task (`QueueRun`). What is proved over these
queues is about a pool whose queue operations are atomic and fail only on a full or an empty queue.
-/

set_option autoImplicit false

namespace NexusTask
namespace Pool

variable {α : Type} {n : Nat}

/-- A worker's local queue, or the global one, at one priority. -/
abbrev QueueRef (n : Nat) := Option (Fin n) × TaskPriority

abbrev Queues (n : Nat) (α : Type) := QueueRef n → List α

/-- The order in which `try_dequeue_highest` visits the priorities. -/
def levels : List TaskPriority := [.critical, .high, .normal, .low]

theorem mem_levels (p : TaskPriority) : p ∈ levels := by cases p <;> simp [levels]

/-- How many tasks a queue holds: the pool constructs local rings of 512 slots and global ones of
2048. -/
def room : QueueRef n → Nat
  | (some _, _) => 511
  | (none, _) => 2047

def tryEnqueue (q : Queues n α) (r : QueueRef n) (task : α) : Option (Queues n α) :=
  if (q r).length < room r then some (Function.update q r (q r ++ [task])) else none

/-- The queues a worker looks into, in order: its own, the global ones, then everyone else's. -/
def scanOrder (w : Fin n) : List (QueueRef n) :=
  levels.map (some w, ·) ++ levels.map (none, ·) ++
    ((List.finRange n).filter (· ≠ w)).flatMap fun v => levels.map (some v, ·)

/-- `PriorityQueueSet::empty`. -/
def setEmpty (q : Queues n α) (owner : Option (Fin n)) : Bool :=
  levels.all fun p => (q (owner, p)).isEmpty

def hasPendingWork (q : Queues n α) : Bool :=
  !setEmpty q none || (List.finRange n).any fun v => !setEmpty q (some v)

theorem setEmpty_iff (q : Queues n α) (owner : Option (Fin n)) :
    setEmpty q owner = true ↔ ∀ p, q (owner, p) = [] := by
  simp only [setEmpty, List.all_eq_true, List.isEmpty_iff]
  exact ⟨fun h p => h p (mem_levels p), fun h p _ => h p⟩

/-- The wait predicate is false exactly when every queue is empty. -/
theorem hasPendingWork_eq_false_iff (q : Queues n α) :
    hasPendingWork q = false ↔ ∀ r, q r = [] := by
  have hset : ∀ owner, (!setEmpty q owner) = false ↔ ∀ p, q (owner, p) = [] := fun owner => by
    rw [Bool.not_eq_false', setEmpty_iff]
  unfold hasPendingWork
  rw [Bool.or_eq_false_iff, hset, List.any_eq_false]
  constructor
  · rintro ⟨hglobal, hlocal⟩ ⟨owner, p⟩
    cases owner with
    | none => exact hglobal p
    | some v =>
      have hv := hlocal v (List.mem_finRange v)
      rw [Bool.not_eq_true, hset] at hv
      exact hv p
  · intro h
    refine ⟨fun p => h (none, p), fun v _ => ?_⟩
    rw [Bool.not_eq_true, hset]
    exact fun p => h (some v, p)

/-- Every queue is on the list a worker scans. -/
theorem mem_scanOrder (w : Fin n) (r : QueueRef n) : r ∈ scanOrder w := by
  obtain ⟨owner, p⟩ := r
  have hp := mem_levels p
  cases owner with
  | none => simp [scanOrder, hp]
  | some v =>
    by_cases hv : v = w
    · simp [scanOrder, hv, hp]
    · simp [scanOrder, hv, hp]

theorem tryEnqueue_eq_some {q q' : Queues n α} {r : QueueRef n} {task : α}
    (h : tryEnqueue q r task = some q') :
    (q r).length < room r ∧ q' = Function.update q r (q r ++ [task]) := by
  unfold tryEnqueue at h
  split at h
  next hroom => exact ⟨hroom, (Option.some.inj h).symm⟩
  next => exact absurd h (by simp)

end Pool
end NexusTask
