import NexusTask.Queue.Batch

/-!
# `slack`

`slack` is what `size` leaves of the capacity. The slot that tells a full queue from an empty one is
among it, so it is one more than there is room for, and never 0.
-/

set_option autoImplicit false

namespace NexusTask
namespace LockFreeTaskQueue

variable {α : Type}

/-- `capacity_ - size()`. -/
def slack (q : LockFreeTaskQueue α) : Nat := (q.capacity + (sizeMax - q.size)) % sizeMax

/-- The queue after `i` calls of `try_enqueue`, with the tasks of the sequence one after the
other. -/
def enqueued (q : LockFreeTaskQueue α) (task : Nat → α) : Nat → LockFreeTaskQueue α
  | 0 => q
  | i + 1 => ((q.enqueued task i).tryEnqueue (task i)).2

/-- What call `i` returns. -/
def accepts (q : LockFreeTaskQueue α) (task : Nat → α) (i : Nat) : Bool :=
  ((q.enqueued task i).tryEnqueue (task i)).1

/-- `slack` is the number of calls of `try_enqueue` that return true before one returns false. -/
structure SlackExact (q : LockFreeTaskQueue α) (task : Nat → α) : Prop where
  succeed : ∀ i < q.slack, q.accepts task i = true
  fails : q.accepts task q.slack = false
  none_iff : q.slack = 0 ↔ q.full = true

namespace Represents

variable {q : LockFreeTaskQueue α} {xs : List α}

theorem slack_eq (h : Represents q xs) : q.slack = q.capacity - xs.length := by
  have hlen := h.holds.length_lt
  have hlt := h.power.capacity_lt
  unfold slack
  rw [h.size_eq]
  have hsum : q.capacity + (sizeMax - xs.length) = q.capacity - xs.length + sizeMax := by omega
  rw [hsum, Nat.add_mod_right, Nat.mod_eq_of_lt (by omega)]

/-- The tasks go in until one slot is left. -/
theorem enqueued (h : Represents q xs) (task : Nat → α) (i : Nat) :
    ∃ ys, (q.enqueued task i).capacity = q.capacity ∧ Represents (q.enqueued task i) ys ∧
      ys.length = min (xs.length + i) (q.capacity - 1) := by
  induction i with
  | zero =>
    have hlen := h.holds.length_lt
    exact ⟨xs, rfl, h, by omega⟩
  | succ i ih =>
    obtain ⟨ys, hcap, hrep, hlength⟩ := ih
    obtain ⟨_, hcap', hrep'⟩ := hrep.tryEnqueue (x := task i)
    refine ⟨_, hcap'.trans hcap, hrep', ?_⟩
    rw [hcap]
    unfold BoundedFifo.push
    split
    next hroom =>
      rw [List.length_append, List.length_singleton]
      omega
    next hfull =>
      show ys.length = _
      omega

theorem accepts_iff (h : Represents q xs) (task : Nat → α) (i : Nat) :
    q.accepts task i = true ↔ i + 1 < q.slack := by
  obtain ⟨ys, hcap, hrep, hlength⟩ := h.enqueued task i
  have hlen := h.holds.length_lt
  have hflag : q.accepts task i = (BoundedFifo.push (q.capacity - 1) ys (task i)).1 :=
    hcap ▸ (hrep.tryEnqueue (x := task i)).1
  rw [hflag, h.slack_eq]
  unfold BoundedFifo.push
  split
  next hroom => simp; omega
  next hfull => simp; omega

end Represents

/-- **`slack` counts one too many**: in every reachable queue `slack - 1` tasks get in. -/
theorem not_slackExact {q : LockFreeTaskQueue α} (hq : Reachable q) (task : Nat → α) :
    ¬ SlackExact q task ∧ (∀ i, q.accepts task i = true ↔ i + 1 < q.slack) ∧ 0 < q.slack := by
  obtain ⟨xs, h⟩ := hq.represents
  have hlen := h.holds.length_lt
  have hpos : 0 < q.slack := by
    rw [h.slack_eq]
    omega
  refine ⟨?_, h.accepts_iff task, hpos⟩
  intro hexact
  have hlast := (h.accepts_iff task (q.slack - 1)).mp (hexact.succeed _ (by omega))
  omega

theorem not_slackExact_four : ¬ SlackExact fourSlots (fun i => i) ∧
    (∀ i, fourSlots.accepts (fun i => i) i = true ↔ i + 1 < fourSlots.slack) ∧
      0 < fourSlots.slack :=
  not_slackExact fourSlots_reachable _

/-- The fourth task does not get into a queue with a `slack` of 4. -/
theorem slack_of_four : ¬ ∀ (q : LockFreeTaskQueue Nat) (task : Nat → Nat), Reachable q →
    SlackExact q task := by
  intro hall
  have hexact := hall fourSlots (fun i => i) fourSlots_reachable
  exact absurd (hexact.succeed 3 (by decide)) (by decide)

end LockFreeTaskQueue
end NexusTask
