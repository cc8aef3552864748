import NexusTask.Lib.BoundedFifo
import NexusTask.Lib.Linearizable
import NexusTask.Queue.Exclusive

/-!
# The queue as an atomic bounded FIFO

What the callers of an exclusive run see could be seen of a bounded FIFO of one place less than the
ring has slots, each of whose calls takes effect at one instant. An enqueue takes effect at its
store of `tail_`, a dequeue at its store of `head_`; a dequeue that returns null when it loads
`tail_`, and an enqueue that returns false already when it loads `head_`, since nobody but itself
moves the tail it is about to compare with.
-/

set_option autoImplicit false

namespace NexusTask
namespace QueueRun

open Transition RingBuffer Linearizable

variable {ι α : Type}

inductive Op (α : Type)
  | enqueue (task : α)
  | dequeue
  deriving DecidableEq

/-- What `try_enqueue` and `try_dequeue` return. -/
inductive Reply (α : Type)
  | enqueued (ok : Bool)
  | dequeued (task : Option α)
  deriving DecidableEq

/-- One operation of a FIFO with `bound` places. -/
def serve (bound : Nat) (xs : List α) : Op α → Reply α × List α
  | .enqueue x => (.enqueued (BoundedFifo.push bound xs x).1, (BoundedFifo.push bound xs x).2)
  | .dequeue => (.dequeued (BoundedFifo.pop xs).1, (BoundedFifo.pop xs).2)

/-- The FIFO as an atomic object. -/
def Serves (bound : Nat) (xs : List α) (op : Op α) (r : Reply α) (ys : List α) : Prop :=
  serve bound xs op = (r, ys)

/-- What a call returns when it ends at the next access of its thread. -/
def Pc.reply : Pc α → Reply α
  | .enqStore _ _ => .enqueued true
  | .enqHead _ | .enqTail _ _ | .enqClaim _ _ => .enqueued false
  | .deqStore _ x => .dequeued (some x)
  | .idle | .deqHead | .deqTail _ | .deqSlot _ | .deqClaim _ _ => .dequeued none

/-- Where a thread is with its call. Full or not is settled with the head it has read. -/
def status (q : LockFreeTaskQueue α) : Pc α → Status (Op α) (Reply α)
  | .idle => .idle
  | .enqTail x head =>
      if q.next q.tail = q.masked head then .answered (.enqueued false) else .called (.enqueue x)
  | .enqHead x | .enqClaim x _ | .enqStore x _ => .called (.enqueue x)
  | .deqHead | .deqTail _ | .deqSlot _ | .deqClaim _ _ | .deqStore _ _ => .called .dequeue

theorem status_full {q : LockFreeTaskQueue α} {x : α} {head : Nat}
    (hfull : q.next q.tail = q.masked head) :
    status q (.enqTail x head) = .answered (.enqueued false) := if_pos hfull

theorem status_room {q : LockFreeTaskQueue α} {x : α} {head : Nat}
    (hroom : q.next q.tail ≠ q.masked head) :
    status q (.enqTail x head) = .called (.enqueue x) := if_neg hroom

/-- The configuration of the atomic queue a state stands for: the tasks accepted and not yet
delivered, and where each thread is. -/
def atomic (s : State ι α) : Configuration ι (List α) (Op α) (Reply α) where
  object := s.accepted.drop s.delivered.length
  status i := status s.queue (s.pc i)

section
variable [DecidableEq ι] [DecidableEq α]

/-- What the callers see of a step. -/
def observe (s : State ι α) (a : Action ι α) : List (Event ι (Op α) (Reply α)) :=
  match a with
  | .callEnqueue i x => [.call i (.enqueue x)]
  | .callDequeue i => [.call i .dequeue]
  | .access i | .spurious i =>
      match step s a with
      | some t => if t.pc i = .idle then [.reply i (s.pc i).reply] else []
      | none => []

theorem observe_access {s u : State ι α} {i : ι} {pc : Pc α}
    (h : step s (.access i) = some (u.goto i pc)) :
    observe s (.access i) = if pc = .idle then [.reply i (s.pc i).reply] else [] := by
  simp only [observe, h, State.goto_pc_self]

omit [DecidableEq α] in
theorem atomic_goto {s : State ι α} {i : ι} {pc : Pc α} {q : LockFreeTaskQueue α} {l m : List α}
    (hother : ∀ j, j ≠ i → status q (s.pc j) = status s.queue (s.pc j)) :
    atomic ({ s with queue := q, accepted := l, delivered := m }.goto i pc)
      = { atomic s with object := l.drop m.length }.goto i (status q pc) := by
  unfold atomic Configuration.goto
  congr 1
  funext j
  by_cases hij : j = i
  · subst hij
    simp
  · rw [Function.update_of_ne hij, State.goto_pc_of_ne hij]
    exact hother j hij

end

/-- The condition on a step: calls of one kind do not overlap, and `compare_exchange_weak` fails
only where the value differs. -/
def ExclusiveStrong (s : State ι α) : Action ι α → Prop
  | .spurious _ => False
  | a => Exclusive s a

instance [Fintype ι] [DecidableEq α] (s : State ι α) :
    (a : Action ι α) → Decidable (ExclusiveStrong s a)
  | .spurious _ => .isFalse id
  | .callEnqueue _ _ => inferInstanceAs (Decidable (∀ j, (s.pc j).enqueuing = none))
  | .callDequeue _ => inferInstanceAs (Decidable (∀ j, (s.pc j).dequeuing = false))
  | .access _ => .isTrue trivial

theorem ExclusiveStrong.exclusive {s : State ι α} {a : Action ι α} (h : ExclusiveStrong s a) :
    Exclusive s a := by
  cases a with
  | spurious => exact h.elim
  | _ => exact h

/-! ## What the layout says of the object -/

namespace Layout

variable {s : State ι α} {xs : List α} {enq deq : Option (ι × α × Nat)}

theorem object_eq (h : Layout s xs enq deq) :
    s.accepted.drop s.delivered.length = (deq.map (·.2.1)).toList ++ xs := by
  rw [h.accepted_eq, List.append_assoc, List.drop_left]

theorem object_length (h : Layout s xs enq deq) :
    (s.accepted.drop s.delivered.length).length = s.queue.windowLength := by
  have hwindow : s.queue.windowLength = deq.toList.length + xs.length := h.offset_tail
  rw [h.object_eq, List.length_append, hwindow]
  cases deq with
  | none => rfl
  | some d => rfl

/-- A ring that looks full has every place of the FIFO taken. -/
theorem full_length (h : Layout s xs enq deq)
    (hfull : s.queue.next s.queue.tail = s.queue.masked s.queue.head) :
    (s.accepted.drop s.delivered.length).length = s.queue.capacity - 1 := by
  rw [h.sized.masked h.head_lt] at hfull
  by_contra hlen
  have hlt := offset_lt h.head_lt h.tail_lt
  rw [h.object_length, LockFreeTaskQueue.windowLength] at hlen
  exact h.next_tail_ne (by omega) hfull

/-- A ring that looks empty has nothing in the FIFO. -/
theorem empty_object (h : Layout s xs enq deq) (hempty : s.queue.head = s.queue.tail) :
    s.accepted.drop s.delivered.length = [] := by
  have hlen := h.object_length
  rw [LockFreeTaskQueue.windowLength, ← hempty, offset_self] at hlen
  exact List.eq_nil_of_length_eq_zero hlen

/-- With no thread at its store of `tail_` the slot there is vacant. -/
theorem tail_slot (h : Layout s xs none deq) : s.queue.buffer s.queue.tail = none := by
  have hholds : Holds s.queue.capacity (front s deq) s.queue.buffer xs := by
    simpa using h.holds
  rw [h.tail_eq]
  exact hholds.get_back

/-- With no thread at its store of `head_` the slot there is taken, unless the window is empty. -/
theorem head_slot (h : Layout s xs enq none) (hne : s.queue.head ≠ s.queue.tail) :
    s.queue.buffer s.queue.head ≠ none := by
  intro hslot
  have hfirst : s.queue.buffer s.queue.head = _ := h.holds.get_front
  rw [hslot] at hfirst
  have hnil := (List.head?_eq_none_iff.mp hfirst.symm)
  obtain rfl := (List.append_eq_nil_iff.mp hnil).1
  refine hne ?_
  have htail : s.queue.tail = index s.queue.capacity s.queue.head 0 := h.tail_eq
  rw [htail, index_zero h.head_lt]

end Layout

/-! ## Step by step -/

section
variable [DecidableEq ι] [DecidableEq α] {s t : State ι α} {i : ι} {cap : Nat}

theorem access_steps {pc : Pc α} {q : LockFreeTaskQueue α} {l m : List α}
    (hacc : access s i = some ({ s with queue := q, accepted := l, delivered := m }.goto i pc))
    (hother : ∀ j, j ≠ i → status q (s.pc j) = status s.queue (s.pc j))
    (hsteps : Steps (Serves cap) (atomic s) (if pc = .idle then [.reply i (s.pc i).reply] else [])
      ({ atomic s with object := l.drop m.length }.goto i (status q pc)))
    (hstep : step s (.access i) = some t) :
    Steps (Serves cap) (atomic s) (observe s (.access i)) (atomic t) := by
  obtain rfl : _ = t := Option.some.inj (hacc.symm.trans hstep)
  rw [observe_access hstep, atomic_goto hother]
  exact hsteps

/-- Every access does what the FIFO can do between the two configurations. -/
theorem refines_access (hlaid : LaidOut s) (hser : Serial s)
    (hstep : step s (.access i) = some t) :
    Steps (Serves (s.queue.capacity - 1)) (atomic s) (observe s (.access i)) (atomic t) := by
  obtain ⟨xs, enq, deq, hl⟩ := hlaid
  have hrel := hser.reliable i
  have hst : (atomic s).status i = status s.queue (s.pc i) := rfl
  cases hpc : s.pc i with
  | idle => exact absurd hstep (by simp [step, access, hpc])
  | enqHead x =>
    rw [hpc] at hst
    have hacc : access s i = some (s.goto i (.enqTail x s.queue.head)) := by simp [access, hpc]
    refine access_steps hacc (fun _ _ => rfl) ?_ hstep
    rw [if_neg (by simp)]
    by_cases hfull : s.queue.next s.queue.tail = s.queue.masked s.queue.head
    · rw [status_full hfull]
      refine .one_effect hst ?_
      have hlen := hl.full_length hfull
      simp only [Serves, serve, BoundedFifo.push]
      rw [if_neg (by show ¬ (s.accepted.drop s.delivered.length).length < _; omega)]
      rfl
    · rw [status_room hfull]
      exact .stay hst
  | enqTail x head =>
    rw [hpc] at hst
    by_cases hfull : s.queue.next s.queue.tail = s.queue.masked head
    · rw [status_full hfull] at hst
      have hacc : access s i = some (s.goto i .idle) := by simp [access, hpc, hfull]
      refine access_steps hacc (fun _ _ => rfl) ?_ hstep
      rw [if_pos rfl, hpc]
      exact .one_reply hst
    · rw [status_room hfull] at hst
      have hacc : access s i = some (s.goto i (.enqClaim x s.queue.tail)) := by
        simp [access, hpc, hfull]
      refine access_steps hacc (fun _ _ => rfl) ?_ hstep
      rw [if_neg (by simp)]
      exact .stay hst
  | enqClaim x tail =>
    rw [hpc] at hst hrel
    obtain ⟨rfl, -⟩ := hrel
    obtain rfl := hl.enq_eq_none hser (i := i) (by rw [hpc]; exact Option.some_ne_none _)
      (by rw [hpc]; rfl)
    have hacc : access s i = some ({ s with queue := s.queue.store s.queue.tail (some x) }.goto i
        (.enqStore x s.queue.tail)) := by simp [access, hpc, hl.tail_slot]
    refine access_steps hacc (fun _ _ => rfl) ?_ hstep
    rw [if_neg (by simp)]
    exact .stay hst
  | enqStore x tail =>
    rw [hpc] at hst
    obtain rfl : enq = some (i, x, tail) := (hl.enq_sole i (x, tail)).mp (by rw [hpc]; rfl)
    have hacc : access s i = some ({ s with queue := { s.queue with tail := s.queue.next tail },
                                            accepted := s.accepted ++ [x] }.goto i .idle) := by
      simp [access, hpc]
    refine access_steps hacc ?_ ?_ hstep
    · intro j hij
      cases hpcj : s.pc j with
      | enqTail y head =>
        refine absurd (hser.one_enqueue j i ?_ ?_) hij
        · rw [hpcj]; exact Option.some_ne_none _
        · rw [hpc]; exact Option.some_ne_none _
      | _ => rfl
    · rw [if_pos rfl, hpc]
      refine .effect_reply hst ?_
      have hroom := hl.room
      have hlen : (s.accepted.drop s.delivered.length).length = deq.toList.length + xs.length :=
        hl.object_length.trans hl.offset_tail
      rw [Option.toList_some, List.length_singleton] at hroom
      rw [List.drop_append_of_le_length hl.delivered_prefix.length_le]
      show serve _ (s.accepted.drop s.delivered.length) _ = _
      rw [serve, BoundedFifo.push, if_pos (by omega)]
      rfl
  | deqHead =>
    rw [hpc] at hst
    have hacc : access s i = some (s.goto i (.deqTail s.queue.head)) := by simp [access, hpc]
    refine access_steps hacc (fun _ _ => rfl) ?_ hstep
    rw [if_neg (by simp)]
    exact .stay hst
  | deqTail head =>
    rw [hpc] at hst hrel
    obtain rfl : head = s.queue.head := hrel
    by_cases hempty : s.queue.head = s.queue.tail
    · have hacc : access s i = some (s.goto i .idle) := by simp [access, hpc, hempty]
      refine access_steps hacc (fun _ _ => rfl) ?_ hstep
      rw [if_pos rfl, hpc]
      refine .effect_reply hst ?_
      show serve _ (s.accepted.drop s.delivered.length) _ = _
      rw [hl.empty_object hempty]
      rfl
    · have hacc : access s i = some (s.goto i (.deqSlot s.queue.head)) := by
        simp [access, hpc, hempty]
      refine access_steps hacc (fun _ _ => rfl) ?_ hstep
      rw [if_neg (by simp)]
      exact .stay hst
  | deqSlot head =>
    rw [hpc] at hst hrel
    obtain ⟨rfl, hne⟩ := hrel
    obtain rfl := hl.deq_eq_none hser (i := i) (by rw [hpc]; rfl) (by rw [hpc]; rfl)
    obtain ⟨x, hslot⟩ := Option.ne_none_iff_exists'.mp (hl.head_slot hne)
    have hacc : access s i = some (s.goto i (.deqClaim s.queue.head x)) := by
      simp [access, hpc, hl.sized.masked hl.head_lt, hslot]
    refine access_steps hacc (fun _ _ => rfl) ?_ hstep
    rw [if_neg (by simp)]
    exact .stay hst
  | deqClaim head x =>
    rw [hpc] at hst hrel
    obtain ⟨rfl, -, hslot⟩ := hrel
    have hmask := hl.sized.masked hl.head_lt
    have hacc : access s i = some ({ s with queue := s.queue.store s.queue.head none }.goto i
        (.deqStore s.queue.head x)) := by simp [access, hpc, hmask, hslot]
    refine access_steps hacc (fun _ _ => rfl) ?_ hstep
    rw [if_neg (by simp)]
    exact .stay hst
  | deqStore head x =>
    rw [hpc] at hst
    obtain rfl : deq = some (i, x, head) := (hl.deq_sole i (x, head)).mp (by rw [hpc]; rfl)
    have hacc : access s i = some ({ s with queue := { s.queue with head := s.queue.next head },
                                            delivered := s.delivered ++ [x] }.goto i .idle) := by
      simp [access, hpc]
    refine access_steps hacc ?_ ?_ hstep
    · intro j _
      cases s.pc j with
      | _ => rfl
    · rw [if_pos rfl, hpc]
      refine .effect_reply hst ?_
      have hafter : s.accepted.drop (s.delivered ++ [x]).length = xs := (hl.deqStore hpc).object_eq
      have hbefore : s.accepted.drop s.delivered.length = x :: xs := hl.object_eq
      rw [hafter]
      show serve _ (s.accepted.drop s.delivered.length) _ = _
      rw [hbefore]
      rfl

theorem capacity_step : Preserved (step (ι := ι) (α := α)) free fun s => s.queue.capacity = cap := by
  intro s a t hcap _ hstep
  cases Move.of_step hstep with
  | _ => exact hcap

/-- What carries the refinement through a run. -/
def Sequenced (cap : Nat) (s : State ι α) : Prop :=
  (LaidOut s ∧ Serial s) ∧ s.queue.capacity = cap

theorem sequenced_step :
    Preserved (step (ι := ι) (α := α)) ExclusiveStrong (Sequenced cap) := fun s a t h hok hstep =>
  ⟨serial_step s a t h.1 hok.exclusive hstep, capacity_step s a t h.2 trivial hstep⟩

theorem refines_step : Refines (Serves (cap - 1)) (step (ι := ι) (α := α)) ExclusiveStrong observe
    (Sequenced cap) atomic := by
  rintro s a t ⟨⟨hlaid, hser⟩, rfl⟩ hok hstep
  cases a with
  | callEnqueue i x =>
    cases Move.of_step hstep with
    | callEnqueue idle _ =>
      have hto : atomic ({ s with issued := s.issued ++ [x] }.goto i (.enqHead x))
          = (atomic s).goto i (.called (.enqueue x)) := atomic_goto fun _ _ => rfl
      rw [hto]
      exact .one_call (congrArg (status s.queue) idle)
    | reads act _ => exact absurd act (by simp)
  | callDequeue i =>
    cases Move.of_step hstep with
    | callDequeue idle =>
      have hto : atomic (s.goto i .deqHead) = (atomic s).goto i (.called .dequeue) :=
        atomic_goto fun _ _ => rfl
      rw [hto]
      exact .one_call (congrArg (status s.queue) idle)
    | reads act _ => exact absurd act (by simp)
  | access i => exact refines_access hlaid hser hstep
  | spurious i => exact hok.elim

end

/-- **Linearizability.** Whatever the callers see of an exclusive run, a FIFO of one place less than
the ring has slots could have shown them, with each call taking effect at one instant. In
particular `false` is only returned when at some moment of the call every place was taken, and
null only when nothing was in the queue. -/
theorem exclusive_linearizable [DecidableEq ι] [DecidableEq α] {k : Nat} (hk : 1 ≤ k) (hk' : k < 64)
    {q : LockFreeTaskQueue α} (hq : LockFreeTaskQueue.new (2 ^ k) = .ok q)
    {as : List (Action ι α)} {s : State ι α} (hrun : Run step ExclusiveStrong (start ι q) as s) :
    Steps (Serves (2 ^ k - 1)) (.start []) (observed step observe (start ι q) as) (atomic s) := by
  have hcap : q.capacity = 2 ^ k := by
    rw [LockFreeTaskQueue.new_eq hk', Except.ok.injEq] at hq
    exact hq ▸ rfl
  exact refines_step.steps sequenced_step hrun ⟨⟨laidOut_new hk hk' hq, serial_start q⟩, hcap⟩

theorem exclusive_linearizable_halfWay :
    Steps (Serves (2 ^ 1 - 1)) (.start []) (observed step observe (start (Fin 2) pair) halfWay)
      (atomic ((exec step ExclusiveStrong (start (Fin 2) pair) halfWay).get (by decide))) :=
  exclusive_linearizable (by decide) (by decide) rfl (.of_isSome (by decide))

end QueueRun
end NexusTask
