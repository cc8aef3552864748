import NexusTask.Queue.Exclusive

/-!
# Phases of enqueuing and phases of dequeuing

Any number of threads may enqueue at once, or dequeue at once, as long as no call of the one kind
begins while one of the other is in progress. Then only one of `head_` and `tail_` moves at a time.
A thread that has lost a race for a slot finds the slot changed, since nobody changes it back
before the phase is over.
-/

set_option autoImplicit false

namespace NexusTask
namespace QueueRun

open Transition RingBuffer

variable {ι α : Type}

/-- The condition on a step: no call begins while one of the other kind is in progress. -/
def Phased (s : State ι α) : Action ι α → Prop
  | .callEnqueue _ _ => ∀ j, (s.pc j).dequeuing = false
  | .callDequeue _ => ∀ j, (s.pc j).enqueuing = none
  | _ => True

instance [Fintype ι] [DecidableEq α] (s : State ι α) : (a : Action ι α) → Decidable (Phased s a)
  | .callEnqueue _ _ => inferInstanceAs (Decidable (∀ j, (s.pc j).dequeuing = false))
  | .callDequeue _ => inferInstanceAs (Decidable (∀ j, (s.pc j).enqueuing = none))
  | .access _ | .spurious _ => .isTrue trivial

/-- What a call relies on of what it has read, where the slot it is after has not changed. -/
def Unraced (q : LockFreeTaskQueue α) : Pc α → Prop
  | .enqTail _ head => head = q.head
  | .enqClaim _ tail => q.buffer tail = none → tail = q.tail ∧ q.next q.tail ≠ q.head
  | .deqTail head => q.buffer (q.masked head) ≠ none → head = q.head
  | .deqSlot head => q.buffer (q.masked head) ≠ none → head = q.head ∧ q.head ≠ q.tail
  | .deqClaim head _ => q.buffer (q.masked head) ≠ none → head = q.head ∧ q.head ≠ q.tail
  | _ => True

/-- Only calls of one kind are in progress, and each can rely on what it has read. -/
structure InPhase (s : State ι α) : Prop where
  one_kind : ∀ i, (s.pc i).enqueuing ≠ none → ∀ j, (s.pc j).dequeuing = false
  unraced : ∀ i, Unraced s.queue (s.pc i)

theorem inPhase_start (q : LockFreeTaskQueue α) : InPhase (start ι q) where
  one_kind _ h := absurd rfl h
  unraced _ := trivial

/-- What the thread goes on to rely on after a load. -/
theorem Unraced.reads {s : State ι α} {xs : List α} {enq deq : Option (ι × α × Nat)}
    (hl : Layout s xs enq deq) {pc pc' : Pc α} (hrel : Unraced s.queue pc)
    (hread : Reads s.queue pc pc') : Unraced s.queue pc' := by
  cases hread with
  | enqHead => rfl
  | enqTail room =>
    obtain rfl := hrel
    rw [hl.sized.masked hl.head_lt] at room
    exact fun _ => ⟨rfl, room⟩
  | deqHead => exact fun _ => rfl
  | deqTail nonempty =>
    intro hslot
    obtain rfl := hrel hslot
    exact ⟨rfl, nonempty⟩
  | deqSlot slot => exact hrel
  | full | enqClaimFails | empty | vacated | deqClaimFails => trivial

/-- While nobody dequeues, a slot that is filled stays filled. -/
theorem Unraced.fill {q : LockFreeTaskQueue α} {pc : Pc α} (h : Unraced q pc) {k : Nat} {x : α}
    (hpc : pc.dequeuing = false) : Unraced (q.store k (some x)) pc := by
  cases pc with
  | enqClaim y tail =>
    intro hslot
    refine h ?_
    by_cases hk : tail = k
    · subst hk
      simp at hslot
    · simpa [Function.update_of_ne hk] using hslot
  | deqTail | deqSlot | deqClaim => exact absurd hpc (by simp [Pc.dequeuing])
  | _ => exact h

/-- While nobody enqueues, a slot that is vacated stays vacant. -/
theorem Unraced.vacate {q : LockFreeTaskQueue α} {pc : Pc α} (h : Unraced q pc) {k : Nat}
    (hpc : pc.enqueuing = none) : Unraced (q.store k none) pc := by
  have hback : ∀ head, (q.store k none).buffer (q.masked head) ≠ none →
      q.buffer (q.masked head) ≠ none := by
    intro head hslot
    by_cases hk : q.masked head = k
    · subst hk
      simp at hslot
    · simpa [Function.update_of_ne hk] using hslot
  cases pc with
  | enqTail | enqClaim => exact absurd hpc (Option.some_ne_none _)
  | deqTail head => exact fun hslot => h (hback head hslot)
  | deqSlot head => exact fun hslot => h (hback head hslot)
  | deqClaim head => exact fun hslot => h (hback head hslot)
  | _ => exact h

/-- Who was after the slot at the old `tail_` finds it taken. -/
theorem Unraced.enqStore {s : State ι α} {xs : List α} {deq : Option (ι × α × Nat)} {i : ι} {x : α}
    {t : Nat} (hl : Layout s xs (some (i, x, t)) deq) {pc : Pc α} (h : Unraced s.queue pc)
    (hpc : pc.dequeuing = false) : Unraced { s.queue with tail := s.queue.next t } pc := by
  cases pc with
  | enqClaim y tail =>
    intro hslot
    obtain ⟨rfl, -⟩ := h hslot
    exact absurd (hl.enq_none hslot) (Option.some_ne_none _)
  | deqTail | deqSlot | deqClaim => exact absurd hpc (by simp [Pc.dequeuing])
  | _ => exact h

/-- Who was after the slot at the old `head_` finds it vacant. -/
theorem Unraced.deqStore {s : State ι α} {xs : List α} {enq : Option (ι × α × Nat)} {i : ι} {x : α}
    {t : Nat} (hl : Layout s xs enq (some (i, x, t))) {pc : Pc α} (h : Unraced s.queue pc)
    (hpc : pc.enqueuing = none) : Unraced { s.queue with head := s.queue.next t } pc := by
  have hgone : ∀ head, s.queue.buffer (s.queue.masked head) ≠ none → head ≠ s.queue.head := by
    rintro head hslot rfl
    rw [hl.sized.masked hl.head_lt] at hslot
    obtain ⟨y, hy⟩ := Option.ne_none_iff_exists'.mp hslot
    exact absurd (hl.deq_none hy) (Option.some_ne_none _)
  cases pc with
  | enqTail | enqClaim => exact absurd hpc (Option.some_ne_none _)
  | deqTail head => exact fun hslot => absurd (h hslot) (hgone head hslot)
  | deqSlot head => exact fun hslot => absurd (h hslot).1 (hgone head hslot)
  | deqClaim head => exact fun hslot => absurd (h hslot).1 (hgone head hslot)
  | _ => trivial

theorem Pc.not_dequeuing {pc : Pc α} (h : pc.enqueuing ≠ none) : pc.dequeuing = false := by
  cases pc with
  | enqHead | enqTail | enqClaim | enqStore => rfl
  | _ => exact absurd rfl h

namespace InPhase

variable {s : State ι α} {i : ι}

/-- What a thread at a claim that succeeds relies on is so. -/
theorem current (h : InPhase s) (a : Action ι α) : Current s a := by
  cases a with
  | access i =>
    have hrel := h.unraced i
    show ClaimCurrent s.queue (s.pc i)
    cases hpc : s.pc i with
    | enqClaim x tail =>
      rw [hpc] at hrel
      intro hslot
      obtain ⟨rfl, hroom⟩ := hrel hslot
      exact ⟨rfl, hroom⟩
    | deqClaim head x =>
      rw [hpc] at hrel
      intro hslot
      exact hrel (by rw [hslot]; exact Option.some_ne_none x)
    | _ => trivial
  | _ => trivial

theorem not_enqueuing (h : InPhase s) (hdeq : (s.pc i).dequeuing = true) (j : ι) :
    (s.pc j).enqueuing = none := by
  by_contra hj
  have hfalse := h.one_kind j hj i
  rw [hdeq] at hfalse
  exact absurd hfalse (by simp)

variable [DecidableEq ι]

theorem goto (h : InPhase s) {pc : Pc α} {q : LockFreeTaskQueue α} {k l m : List α}
    (henq : pc.enqueuing ≠ none → ∀ j, j ≠ i → (s.pc j).dequeuing = false)
    (hdeq : pc.dequeuing = true → ∀ j, j ≠ i → (s.pc j).enqueuing = none)
    (hself : Unraced q pc) (hother : ∀ j, j ≠ i → Unraced q (s.pc j)) :
    InPhase ({ s with queue := q, issued := k, accepted := l, delivered := m }.goto i pc) where
  one_kind := by
    intro j hj k
    by_cases hij : j = i <;> by_cases hik : k = i
    · subst hij hik
      rw [State.goto_pc_self] at hj ⊢
      exact Pc.not_dequeuing hj
    · subst hij
      rw [State.goto_pc_self] at hj
      rw [State.goto_pc_of_ne hik]
      exact henq hj k hik
    · subst hik
      rw [State.goto_pc_of_ne hij] at hj
      rw [State.goto_pc_self]
      by_contra hk
      exact hj (hdeq (by simpa using hk) j hij)
    · rw [State.goto_pc_of_ne hij] at hj
      rw [State.goto_pc_of_ne hik]
      exact h.one_kind j hj k
  unraced := by
    intro j
    by_cases hij : j = i
    · subst hij
      rwa [State.goto_pc_self]
    · rw [State.goto_pc_of_ne hij]
      exact hother j hij

/-- A thread that stays within its call, or leaves it. -/
theorem within (h : InPhase s) {pc : Pc α} {q : LockFreeTaskQueue α} {l m : List α}
    (henq : pc.enqueuing = none ∨ pc.enqueuing = (s.pc i).enqueuing)
    (hdeq : pc.dequeuing = false ∨ pc.dequeuing = (s.pc i).dequeuing) (hself : Unraced q pc)
    (hother : ∀ j, j ≠ i → Unraced q (s.pc j)) :
    InPhase ({ s with queue := q, accepted := l, delivered := m }.goto i pc) := by
  refine h.goto ?_ ?_ hself hother
  · intro hpc j _
    rcases henq with hnone | hsame
    · exact absurd hnone hpc
    · exact h.one_kind i (hsame ▸ hpc) j
  · intro hpc j _
    rcases hdeq with hnone | hsame
    · rw [hnone] at hpc
      exact absurd hpc (by simp)
    · exact h.not_enqueuing (hsame ▸ hpc) j

end InPhase

section
variable [DecidableEq ι] [DecidableEq α]

theorem inPhase_step :
    Preserved (step (ι := ι) (α := α)) Phased fun s => LaidOut s ∧ InPhase s := by
  intro s a t ⟨hlaid, hph⟩ hok hstep
  refine ⟨laidOut_step s a t hlaid (hph.current a) hstep, ?_⟩
  obtain ⟨xs, enq, deq, hl⟩ := hlaid
  cases Move.of_step hstep with
  | callEnqueue idle _ =>
    exact hph.goto (fun _ j _ => hok j) (fun hdeq => absurd hdeq (by simp [Pc.dequeuing])) trivial
      fun j _ => hph.unraced j
  | callDequeue idle =>
    exact hph.goto (fun henq => absurd rfl henq) (fun _ j _ => hok j) trivial
      fun j _ => hph.unraced j
  | reads _ read =>
    exact hph.within read.enqueuing read.dequeuing (.reads hl (hph.unraced _) read)
      fun j _ => hph.unraced j
  | @enqClaim i x tail old _ =>
    have hnone := hph.one_kind i (by rw [old]; exact Option.some_ne_none _)
    exact hph.within (.inr (congrArg Pc.enqueuing old).symm) (.inl rfl) trivial
      fun j _ => (hph.unraced j).fill (hnone j)
  | @enqStore i x tail old =>
    obtain rfl : enq = some (i, x, tail) := (hl.enq_sole i (x, tail)).mp (by rw [old]; rfl)
    have hnone := hph.one_kind i (by rw [old]; exact Option.some_ne_none _)
    exact hph.within (.inl rfl) (.inl rfl) trivial
      fun j _ => .enqStore hl (hph.unraced j) (hnone j)
  | @deqClaim i head x old _ =>
    have hnone := hph.not_enqueuing (i := i) (by rw [old]; rfl)
    exact hph.within (.inl rfl) (.inr (congrArg Pc.dequeuing old).symm) trivial
      fun j _ => (hph.unraced j).vacate (hnone j)
  | @deqStore i head x old =>
    obtain rfl : deq = some (i, x, head) := (hl.deq_sole i (x, head)).mp (by rw [old]; rfl)
    have hnone := hph.not_enqueuing (i := i) (by rw [old]; rfl)
    exact hph.within (.inl rfl) (.inl rfl) trivial
      fun j _ => .deqStore hl (hph.unraced j) (hnone j)

/-- Calls in phases make only current claims. -/
theorem phased_current {s t : State ι α} {as : List (Action ι α)} (hrun : Run step Phased s as t)
    (hlaid : LaidOut s) (hph : InPhase s) : Run step Current s as t :=
  hrun.strengthen inPhase_step (fun _ a _ h _ _ => h.2.current a) ⟨hlaid, hph⟩

/-- **In phases any number of threads may share the queue**: it is first in, first out, whoever
wins the races for the slots. -/
theorem phased_fifo {k : Nat} (hk : 1 ≤ k) (hk' : k < 64)
    {q : LockFreeTaskQueue α} (hq : LockFreeTaskQueue.new (2 ^ k) = .ok q)
    {as : List (Action ι α)} {s : State ι α} (hrun : Run step Phased (start ι q) as s) :
    s.FirstInFirstOut :=
  current_fifo hk hk' hq (phased_current hrun (laidOut_new hk hk' hq) (inPhase_start q))

end

/-- Two producers race for slot 0 of `pair`; the loser is told that the queue is full. -/
def raced : List (Action (Fin 2) Nat) :=
  [.callEnqueue 0 10, .access 0, .access 0, .callEnqueue 1 11, .access 1, .access 1, .access 1,
   .access 0, .access 1]

theorem phased_fifo_raced :
    ((exec step Phased (start (Fin 2) pair) raced).get (by decide)).FirstInFirstOut :=
  phased_fifo (k := 1) (by decide) (by decide) rfl (.of_isSome (by decide))

end QueueRun
end NexusTask
