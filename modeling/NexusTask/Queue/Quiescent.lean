import Mathlib.Data.List.Nodup
import NexusTask.Queue.Window

/-!
# Quiescent states of the queue

With no call in progress nothing is half done, so the layout of `Window` is the window
`[head_, tail_)` itself. What remains is that no task is accepted twice, which holds in every
interleaving: a task belongs to one call, and it is accepted when that call returns.
-/

set_option autoImplicit false

namespace NexusTask
namespace QueueRun

open Transition RingBuffer

variable {ι α : Type}

theorem Reads.enqueuing {q : LockFreeTaskQueue α} {pc pc' : Pc α} (h : Reads q pc pc') :
    pc'.enqueuing = none ∨ pc'.enqueuing = pc.enqueuing := by
  cases h with
  | enqHead | enqTail _ => exact .inr rfl
  | full _ | enqClaimFails | deqHead | empty _ | deqTail _ | vacated _ | deqSlot _
  | deqClaimFails => exact .inl rfl

/-- A task belongs to one call, and is accepted when that call returns. -/
structure Distinct (s : State ι α) : Prop where
  accepted_nodup : s.accepted.Nodup
  accepted_issued : ∀ x ∈ s.accepted, x ∈ s.issued
  pending : ∀ i x, (s.pc i).enqueuing = some x → x ∈ s.issued ∧ x ∉ s.accepted
  one_call : ∀ i j x, (s.pc i).enqueuing = some x → (s.pc j).enqueuing = some x → i = j

theorem distinct_start (q : LockFreeTaskQueue α) : Distinct (start ι q) :=
  ⟨List.nodup_nil, by simp [start], by simp [start, Pc.enqueuing], by simp [start, Pc.enqueuing]⟩

namespace Distinct

variable {s : State ι α} {i : ι}

theorem ofQueue (h : Distinct s) (q : LockFreeTaskQueue α) (l : List α) :
    Distinct { s with queue := q, delivered := l } :=
  ⟨h.accepted_nodup, h.accepted_issued, h.pending, h.one_call⟩

variable [DecidableEq ι]

theorem goto (h : Distinct s) {pc : Pc α}
    (hpc : pc.enqueuing = none ∨ pc.enqueuing = (s.pc i).enqueuing) : Distinct (s.goto i pc) := by
  have hback : ∀ j x, ((s.goto i pc).pc j).enqueuing = some x → (s.pc j).enqueuing = some x := by
    intro j x hj
    by_cases hij : j = i
    · subst hij
      rw [State.goto_pc_self] at hj
      rcases hpc with hnone | hsame
      · rw [hnone] at hj; exact absurd hj (by simp)
      · rwa [hsame] at hj
    · rwa [State.goto_pc_of_ne hij] at hj
  exact ⟨h.accepted_nodup, h.accepted_issued, fun j x hj => h.pending j x (hback j x hj),
    fun j k x hj hk => h.one_call j k x (hback j x hj) (hback k x hk)⟩

theorem accept (h : Distinct s) {x : α} (hpc : (s.pc i).enqueuing = some x)
    (q : LockFreeTaskQueue α) :
    Distinct ({ s with queue := q, accepted := s.accepted ++ [x] }.goto i .idle) := by
  obtain ⟨hissued, hfresh⟩ := h.pending i x hpc
  have hother : ∀ j y, (({ s with queue := q, accepted := s.accepted ++ [x] }.goto i .idle).pc
      j).enqueuing = some y → j ≠ i ∧ (s.pc j).enqueuing = some y := by
    intro j y hj
    have hij : j ≠ i := by rintro rfl; simp [Pc.enqueuing] at hj
    rw [State.goto_pc_of_ne hij] at hj
    exact ⟨hij, hj⟩
  refine ⟨?_, ?_, ?_, ?_⟩
  · refine List.nodup_append.mpr ⟨h.accepted_nodup, List.nodup_singleton x, ?_⟩
    rintro a ha b hb rfl
    rw [List.mem_singleton.mp hb] at ha
    exact hfresh ha
  · intro y hy
    rcases List.mem_append.mp hy with hy | hy
    · exact h.accepted_issued y hy
    · rw [List.mem_singleton.mp hy]; exact hissued
  · intro j y hj
    obtain ⟨hij, hj⟩ := hother j y hj
    obtain ⟨hy, hny⟩ := h.pending j y hj
    refine ⟨hy, fun hmem => ?_⟩
    rcases List.mem_append.mp hmem with hmem | hmem
    · exact hny hmem
    · rw [List.mem_singleton.mp hmem] at hj
      exact hij (h.one_call j i x hj hpc)
  · intro j k y hj hk
    exact h.one_call j k y (hother j y hj).2 (hother k y hk).2

theorem call (h : Distinct s) {x : α} (hx : x ∉ s.issued) :
    Distinct ({ s with issued := s.issued ++ [x] }.goto i (.enqHead x)) := by
  have hold : ∀ j y, (s.pc j).enqueuing = some y → y ≠ x := by
    rintro j y hj rfl
    exact hx (h.pending j y hj).1
  refine ⟨h.accepted_nodup, fun y hy => by simp [h.accepted_issued y hy], ?_, ?_⟩
  · intro j y hj
    by_cases hij : j = i
    · subst hij
      simp only [State.goto_pc_self, Pc.enqueuing, Option.some.injEq] at hj
      subst hj
      exact ⟨by simp, fun hmem => hx (h.accepted_issued x hmem)⟩
    · rw [State.goto_pc_of_ne hij] at hj
      obtain ⟨hy, hny⟩ := h.pending j y hj
      exact ⟨by simp [hy], hny⟩
  · intro j k y hj hk
    by_cases hij : j = i <;> by_cases hik : k = i
    · rw [hij, hik]
    · subst hij
      simp only [State.goto_pc_self, Pc.enqueuing, Option.some.injEq] at hj
      rw [State.goto_pc_of_ne hik] at hk
      exact absurd hj.symm (hold k y hk)
    · subst hik
      simp only [State.goto_pc_self, Pc.enqueuing, Option.some.injEq] at hk
      rw [State.goto_pc_of_ne hij] at hj
      exact absurd hk.symm (hold j y hj)
    · rw [State.goto_pc_of_ne hij] at hj
      rw [State.goto_pc_of_ne hik] at hk
      exact h.one_call j k y hj hk

end Distinct

section
variable [DecidableEq ι] [DecidableEq α]

theorem distinct_step : Preserved (step (ι := ι) (α := α)) free Distinct := by
  intro s a t h _ hstep
  cases Move.of_step hstep with
  | callEnqueue _ fresh => exact h.call fresh
  | callDequeue _ => exact h.goto (.inl rfl)
  | reads _ read => exact h.goto read.enqueuing
  | enqClaim old _ => exact (h.ofQueue _ s.delivered).goto (.inr (congrArg Pc.enqueuing old).symm)
  | enqStore old => exact h.accept (congrArg Pc.enqueuing old) _
  | deqClaim _ _ => exact (h.ofQueue _ s.delivered).goto (.inl rfl)
  | deqStore _ => exact (h.ofQueue _ _).goto (.inl rfl)

end

/-! ## The window of a quiescent state -/

theorem consistent_of_quiescent {s : State ι α} (hl : LaidOut s) (hd : Distinct s)
    (hq : s.Quiescent) : s.Consistent := by
  obtain ⟨xs, enq, deq, hl⟩ := hl
  obtain rfl := hl.enq_sole.eq_none fun i => by rw [hq i]; rfl
  obtain rfl := hl.deq_sole.eq_none fun i => by rw [hq i]; rfl
  have hholds : Holds s.queue.capacity s.queue.head s.queue.buffer xs := by
    simpa [front] using hl.holds
  have hlen : s.queue.windowLength = xs.length := by
    have htail : s.queue.tail = index s.queue.capacity s.queue.head xs.length := hl.tail_eq
    rw [LockFreeTaskQueue.windowLength, htail, offset_index hl.head_lt hholds.length_lt]
  have hwindow : s.queue.window = xs := by
    rw [LockFreeTaskQueue.window, hlen]
    exact hholds.read
  have haccepted : s.accepted = s.delivered ++ s.queue.window := by
    rw [hwindow]; simpa using hl.accepted_eq
  exact {
    slots := fun i hi => by
      rw [LockFreeTaskQueue.InWindow, hlen]
      exact hholds.occupied_iff hi
    distinct := haccepted ▸ hd.accepted_nodup
    tasks := by rw [haccepted] }

/-- **Under `Current` claims no task is lost, delivered twice or stranded.** Any number of threads,
any interleaving, spurious failures included: in a state with no call in progress the non-null
slots are those of the window, and the accepted tasks are the delivered ones and those in it. -/
theorem quiescent_consistent [DecidableEq ι] [DecidableEq α] {k : Nat} (hk : 1 ≤ k) (hk' : k < 64)
    {q : LockFreeTaskQueue α} (hq : LockFreeTaskQueue.new (2 ^ k) = .ok q)
    {as : List (Action ι α)} {s : State ι α} (hrun : Run step Current (start ι q) as s)
    (hs : s.Quiescent) : s.Consistent := by
  rw [LockFreeTaskQueue.new_eq hk', Except.ok.injEq] at hq
  subst hq
  have hl : LaidOut s :=
    hrun.invariant laidOut_step (laidOut_start ⟨k, hk, hk', rfl, rfl⟩ rfl rfl rfl)
  have hd : Distinct s := hrun.toFree.invariant distinct_step (distinct_start _)
  exact consistent_of_quiescent hl hd hs

/-! ## The smallest ring -/

/-- A queue of capacity 2 as constructed. -/
def pair : LockFreeTaskQueue Nat :=
  { capacity := 2, mask := 1, buffer := fun _ => none, head := 0, tail := 0 }

/-- Thread 0 enqueues 10, then thread 1 dequeues it. -/
def handOver : List (Action (Fin 2) Nat) :=
  [.callEnqueue 0 10, .access 0, .access 0, .access 0, .access 0,
   .callDequeue 1, .access 1, .access 1, .access 1, .access 1, .access 1]

theorem quiescent_consistent_handOver :
    ((exec step Current (start (Fin 2) pair) handOver).get (by decide)).Consistent :=
  quiescent_consistent (k := 1) (by decide) (by decide) rfl (.of_isSome (by decide)) (by decide)

/-- Thread 0 reads `head_` and `tail_` and stops. Meanwhile 11 goes through the same slot and
`head_` and `tail_` move on. The slot is null again, so thread 0's claim still succeeds. -/
def staleClaim : List (Action (Fin 3) Nat) :=
  [.callEnqueue 0 10, .access 0, .access 0,
   .callEnqueue 1 11, .access 1, .access 1, .access 1, .access 1,
   .callDequeue 2, .access 2, .access 2, .access 2, .access 2, .access 2,
   .access 0, .access 0]

/-- The state `staleClaim` ends in. -/
def stranded : State (Fin 3) Nat := (exec step free (start (Fin 3) pair) staleClaim).get (by decide)

/-- Without the condition a task is stranded: 10 was accepted and lies in slot 0, but `head_` and
`tail_` are both 1. -/
theorem stale_claim_strands : ¬ ∀ (k : Nat) (q : LockFreeTaskQueue Nat)
    (as : List (Action (Fin 3) Nat)) (s : State (Fin 3) Nat), 1 ≤ k → k < 64 →
      LockFreeTaskQueue.new (2 ^ k) = .ok q → Run step free (start (Fin 3) q) as s →
      s.Quiescent → s.Consistent := by
  intro hall
  have hcons : stranded.Consistent :=
    hall 1 pair staleClaim _ (by decide) (by decide) rfl (.of_isSome _) (by decide)
  have hstranded : stranded.queue.InWindow 0 := (hcons.slots 0 (by decide)).mp (by decide)
  exact absurd hstranded (by decide)

end QueueRun
end NexusTask
