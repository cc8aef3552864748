import NexusTask.Lib.Threads
import NexusTask.Queue.Steps

/-!
# What interleaved calls leave in the queue

`head_` and `tail_` are advanced by plain stores, each some time after the compare-exchange that
claimed the slot. As long as every claim is `Current`, at most one thread is between its claim and
its store on either side, and the queue is a list laid out in the ring: `Layout` says where, with
the two half-done operations named. A claim that is not current breaks exactly this.
-/

set_option autoImplicit false

namespace NexusTask
namespace QueueRun

open Transition RingBuffer

variable {ι α : Type}

/-- The thread is about to store `tail_`: the task it has put into slot `t`, and `t`. -/
def Pc.storingTail : Pc α → Option (α × Nat)
  | .enqStore x t => some (x, t)
  | _ => none

/-- The thread is about to store `head_`: the task it has taken from slot `h`, and `h`. -/
def Pc.storingHead : Pc α → Option (α × Nat)
  | .deqStore h x => some (x, h)
  | _ => none

theorem Reads.storing {q : LockFreeTaskQueue α} {pc pc' : Pc α} (h : Reads q pc pc') :
    pc.storingTail = none ∧ pc.storingHead = none ∧ pc'.storingTail = none ∧
      pc'.storingHead = none := by
  cases h
  all_goals exact ⟨rfl, rfl, rfl, rfl⟩

/-- Where the list begins: a dequeuer that has claimed the head slot has yet to move `head_`. -/
def front (s : State ι α) (deq : Option (ι × α × Nat)) : Nat :=
  if deq.isSome then advance s.queue.capacity s.queue.head else s.queue.head

/-- The list `xs` is laid out from the front to `tail_`. `enq` is the thread that has claimed the
slot at `tail_` and has yet to move `tail_`, `deq` the one that has vacated the slot at `head_`
and has yet to move `head_`. -/
structure Layout (s : State ι α) (xs : List α) (enq deq : Option (ι × α × Nat)) : Prop where
  sized : s.queue.Sized
  head_lt : s.queue.head < s.queue.capacity
  holds : Holds s.queue.capacity (front s deq) s.queue.buffer (xs ++ (enq.map (·.2.1)).toList)
  tail_eq : s.queue.tail = index s.queue.capacity (front s deq) xs.length
  room : xs.length + enq.toList.length + deq.toList.length < s.queue.capacity
  enq_sole : Sole s.pc Pc.storingTail enq
  enq_tail : ∀ i x t, enq = some (i, x, t) → t = s.queue.tail
  deq_sole : Sole s.pc Pc.storingHead deq
  deq_head : ∀ i x h, deq = some (i, x, h) → h = s.queue.head
  accepted_eq : s.accepted = s.delivered ++ (deq.map (·.2.1)).toList ++ xs

def LaidOut (s : State ι α) : Prop := ∃ xs enq deq, Layout s xs enq deq

namespace Layout

variable {s : State ι α} {xs : List α} {enq deq : Option (ι × α × Nat)} {i : ι} {x : α}

theorem front_lt (h : Layout s xs enq deq) : front s deq < s.queue.capacity := h.holds.front_lt

theorem tail_lt (h : Layout s xs enq deq) : s.queue.tail < s.queue.capacity := by
  have := h.room
  rw [h.tail_eq]
  exact index_lt h.front_lt (by omega)

/-- While a claimed slot waits for `tail_` to move, the slot at `tail_` is taken. -/
theorem enq_none (h : Layout s xs enq deq) (hslot : s.queue.buffer s.queue.tail = none) :
    enq = none := by
  cases enq with
  | none => rfl
  | some e =>
    have hroom := h.room
    have hget := h.holds.get_index (k := xs.length) (by omega)
    rw [← h.tail_eq, hslot] at hget
    simp at hget

/-- While a vacated slot waits for `head_` to move, the slot at `head_` is vacant. -/
theorem deq_none (h : Layout s xs enq deq) (hslot : s.queue.buffer s.queue.head = some x) :
    deq = none := by
  cases deq with
  | none => rfl
  | some d =>
    have hroom := h.room
    have hslots := h.holds.slot s.queue.head h.head_lt
    have hoff : offset s.queue.capacity (front s (some d)) s.queue.head = s.queue.capacity - 1 :=
      offset_advance_front h.head_lt
    rw [hslot, hoff, List.getElem?_eq_none] at hslots
    · exact absurd hslots (by simp)
    · cases enq <;> simp at hroom ⊢ <;> omega

/-- Between the list and the head slot a current claim of the tail slot leaves one more vacant. -/
theorem claim_room (h : Layout s xs none deq)
    (hfull : s.queue.next s.queue.tail ≠ s.queue.head) :
    xs.length + 1 + deq.toList.length < s.queue.capacity := by
  have hroom := h.room
  have hcap := h.sized.two_le
  rw [h.sized.next h.tail_lt, h.tail_eq] at hfull
  by_contra hlen
  refine hfull ?_
  cases deq with
  | none =>
    simp only [Option.toList_none, List.length_nil, Nat.add_zero] at hroom hlen
    exact advance_index_last h.head_lt (by omega)
  | some d =>
    simp only [Option.toList_some, Option.toList_none, List.length_nil, List.length_singleton,
      Nat.add_zero] at hroom hlen
    have hfront : front s (some d) = advance s.queue.capacity s.queue.head := rfl
    rw [hfront, index_advance h.head_lt (by omega)]
    exact advance_index_last h.head_lt (by omega)

theorem issue (h : Layout s xs enq deq) (l : List α) :
    Layout { s with issued := l } xs enq deq := ⟨h.sized, h.head_lt, h.holds, h.tail_eq, h.room,
    h.enq_sole, h.enq_tail, h.deq_sole, h.deq_head, h.accepted_eq⟩

variable [DecidableEq ι]

/-- Moving one thread between program points that own no half-done store changes nothing. -/
theorem goto (h : Layout s xs enq deq) {pc : Pc α} (htail : (s.pc i).storingTail = none)
    (hhead : (s.pc i).storingHead = none) (htail' : pc.storingTail = none)
    (hhead' : pc.storingHead = none) : Layout (s.goto i pc) xs enq deq where
  sized := h.sized
  head_lt := h.head_lt
  holds := h.holds
  tail_eq := h.tail_eq
  room := h.room
  enq_sole := h.enq_sole.stay htail htail'
  enq_tail := h.enq_tail
  deq_sole := h.deq_sole.stay hhead hhead'
  deq_head := h.deq_head
  accepted_eq := h.accepted_eq

/-- The successful compare-exchange of `try_enqueue`. -/
theorem enqClaim (h : Layout s xs enq deq) (hhead : (s.pc i).storingHead = none)
    (hslot : s.queue.buffer s.queue.tail = none)
    (hfull : s.queue.next s.queue.tail ≠ s.queue.head) :
    Layout ({ s with queue := s.queue.store s.queue.tail (some x) }.goto i
      (.enqStore x s.queue.tail)) xs (some (i, x, s.queue.tail)) deq := by
  obtain rfl := h.enq_none hslot
  have hroom := h.claim_room hfull
  have hh : Holds s.queue.capacity (front s deq) s.queue.buffer xs := by
    simpa using h.holds
  exact {
    sized := h.sized
    head_lt := h.head_lt
    holds := by
      have hpush := hh.push (x := x) (by omega)
      rw [← h.tail_eq] at hpush
      exact hpush
    tail_eq := h.tail_eq
    room := hroom
    enq_sole := h.enq_sole.enter rfl
    enq_tail := by
      intro j y t he
      simp only [Option.some.injEq, Prod.mk.injEq] at he
      exact he.2.2.symm
    deq_sole := h.deq_sole.stay hhead rfl
    deq_head := h.deq_head
    accepted_eq := h.accepted_eq }

/-- The store of `tail_`, where `try_enqueue` returns true. -/
theorem enqStore (h : Layout s xs enq deq) {t : Nat} (hpc : s.pc i = .enqStore x t) :
    Layout ({ s with queue := { s.queue with tail := s.queue.next t },
                     accepted := s.accepted ++ [x] }.goto i .idle) (xs ++ [x]) none deq := by
  have henq : enq = some (i, x, t) := (h.enq_sole i (x, t)).mp (by rw [hpc]; rfl)
  obtain rfl := h.enq_tail i x t henq
  obtain rfl := henq
  have hroom := h.room
  simp only [Option.toList_some, List.length_singleton] at hroom
  exact {
    sized := h.sized
    head_lt := h.head_lt
    holds := by
      have hh : Holds s.queue.capacity (front s deq) s.queue.buffer (xs ++ [x]) := h.holds
      rw [← List.append_nil (xs ++ [x])] at hh
      exact hh
    tail_eq := by
      have hsucc := index_succ h.front_lt (k := xs.length) (by omega)
      rw [← h.tail_eq, ← h.sized.next h.tail_lt] at hsucc
      rw [List.length_append, List.length_singleton]
      exact hsucc.symm
    room := by simpa using hroom
    enq_sole := h.enq_sole.leave rfl
    enq_tail := fun j y u he => absurd he (by simp)
    deq_sole := h.deq_sole.stay (by rw [hpc]; rfl) rfl
    deq_head := h.deq_head
    accepted_eq := by
      simp only [State.goto_accepted, State.goto_delivered]
      rw [h.accepted_eq, List.append_assoc _ xs] }

/-- The successful compare-exchange of `try_dequeue`. -/
theorem deqClaim (h : Layout s xs enq deq) (htail : (s.pc i).storingTail = none)
    (hslot : s.queue.buffer s.queue.head = some x) (hempty : s.queue.head ≠ s.queue.tail) :
    ∃ ys, Layout ({ s with queue := s.queue.store s.queue.head none }.goto i
      (.deqStore s.queue.head x)) ys enq (some (i, x, s.queue.head)) := by
  obtain rfl := h.deq_none hslot
  have hroom := h.room
  -- The window is not empty, so the task in the head slot is the first of the list.
  obtain ⟨ys, rfl⟩ : ∃ ys, xs = x :: ys := by
    cases xs with
    | nil =>
      have htail := h.tail_eq
      rw [List.length_nil, index_zero h.front_lt] at htail
      exact absurd htail.symm hempty
    | cons y ys =>
      have hfirst := h.holds.get_front
      simp only [front, Option.isSome_none, Bool.false_eq_true, if_false, hslot,
        List.cons_append, List.head?_cons, Option.some.injEq] at hfirst
      exact ⟨ys, by rw [hfirst]⟩
  simp only [List.length_cons, Option.toList_none, List.length_nil, Nat.add_zero] at hroom
  refine ⟨ys, { h with
    holds := Holds.pop (x := x) h.holds
    tail_eq := ?_
    room := ?_
    enq_sole := h.enq_sole.stay htail rfl
    deq_sole := h.deq_sole.enter rfl
    deq_head := ?_
    accepted_eq := ?_ }⟩
  · have htail : s.queue.tail = index s.queue.capacity s.queue.head (ys.length + 1) := h.tail_eq
    rw [← index_advance h.head_lt (by omega)] at htail
    exact htail
  · simp only [State.goto_queue, LockFreeTaskQueue.store_capacity, Option.toList_some,
      List.length_singleton]
    omega
  · intro j y u he
    simp only [Option.some.injEq, Prod.mk.injEq] at he
    exact he.2.2.symm
  · simpa using h.accepted_eq

/-- The store of `head_`, where `try_dequeue` returns the task. -/
theorem deqStore (h : Layout s xs enq deq) {t : Nat} (hpc : s.pc i = .deqStore t x) :
    Layout ({ s with queue := { s.queue with head := s.queue.next t },
                     delivered := s.delivered ++ [x] }.goto i .idle) xs enq none := by
  have hdeq : deq = some (i, x, t) := (h.deq_sole i (x, t)).mp (by rw [hpc]; rfl)
  obtain rfl := h.deq_head i x t hdeq
  obtain rfl := hdeq
  have hroom := h.room
  simp only [Option.toList_some, List.length_singleton] at hroom
  have hfront : front s (some (i, x, s.queue.head)) = s.queue.next s.queue.head :=
    (h.sized.next h.head_lt).symm
  have hh := h.holds
  have htail := h.tail_eq
  rw [hfront] at hh htail
  exact {
    sized := h.sized
    head_lt := h.sized.next_lt h.head_lt
    holds := hh
    tail_eq := htail
    room := by
      simp only [State.goto_queue, Option.toList_none, List.length_nil]
      omega
    enq_sole := h.enq_sole.stay (by rw [hpc]; rfl) rfl
    enq_tail := h.enq_tail
    deq_sole := h.deq_sole.leave rfl
    deq_head := fun j y u he => absurd he (by simp)
    accepted_eq := by simpa using h.accepted_eq }

end Layout

/-! ## Every step under `Current` -/

theorem laidOut_start {q : LockFreeTaskQueue α} (hq : q.Sized) (hhead : q.head = 0)
    (htail : q.tail = 0) (hbuf : q.buffer = fun _ => none) : LaidOut (start ι q) := by
  have hpos := hq.capacity_pos
  refine ⟨[], none, none, {
    sized := hq
    head_lt := by simpa [start, hhead] using hpos
    holds := ?_
    tail_eq := ?_
    room := by simpa [start] using hpos
    enq_sole := .vacant fun _ => rfl
    enq_tail := fun _ _ _ he => absurd he (by simp)
    deq_sole := .vacant fun _ => rfl
    deq_head := fun _ _ _ he => absurd he (by simp)
    accepted_eq := rfl }⟩
  · simp only [start, front, hhead, hbuf, Option.isSome_none, Bool.false_eq_true, if_false,
      Option.map_none, Option.toList_none, List.append_nil]
    exact Holds.empty hpos
  · simp only [start, front, hhead, htail, Option.isSome_none, Bool.false_eq_true, if_false,
      List.length_nil]
    exact (index_zero hpos).symm

section
variable [DecidableEq ι] [DecidableEq α]

theorem laidOut_step : Preserved (step (ι := ι) (α := α)) Current LaidOut := by
  intro s a t ⟨xs, enq, deq, hl⟩ hok hstep
  cases Move.of_step hstep with
  | callEnqueue idle _ =>
    exact ⟨xs, enq, deq, (hl.issue _).goto (by rw [idle]; rfl) (by rw [idle]; rfl) rfl rfl⟩
  | callDequeue idle =>
    exact ⟨xs, enq, deq, hl.goto (by rw [idle]; rfl) (by rw [idle]; rfl) rfl rfl⟩
  | reads act read =>
    obtain ⟨htail, hhead, htail', hhead'⟩ := read.storing
    exact ⟨xs, enq, deq, hl.goto htail hhead htail' hhead'⟩
  | enqClaim old slot =>
    simp only [Current, old, ClaimCurrent] at hok
    obtain ⟨rfl, hfull⟩ := hok slot
    exact ⟨xs, _, deq, hl.enqClaim (by rw [old]; rfl) slot hfull⟩
  | enqStore old => exact ⟨_, none, deq, hl.enqStore old⟩
  | deqClaim old slot =>
    simp only [Current, old, ClaimCurrent] at hok
    obtain ⟨rfl, hempty⟩ := hok slot
    rw [hl.sized.masked hl.head_lt] at slot ⊢
    obtain ⟨ys, hys⟩ := hl.deqClaim (by rw [old]; rfl) slot hempty
    exact ⟨ys, enq, _, hys⟩
  | deqStore old => exact ⟨xs, enq, none, hl.deqStore old⟩

end
end QueueRun
end NexusTask
