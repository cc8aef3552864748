import NexusTask.Queue.Quiescent

/-!
# One call of each kind at a time

The header calls the queue MPMC, and under several producers or consumers a claim can succeed that
is no longer current. With at most one `try_enqueue` and one `try_dequeue` in progress (one
producer thread and one consumer thread, or a lock on either side) that cannot happen, although
the two still interleave at every access: the head a producer has read only falls behind, so the
window it computes is too long, never too short, and the slot a consumer has read stays what it is
until that consumer clears it.
-/

set_option autoImplicit false

namespace NexusTask
namespace QueueRun

open Transition RingBuffer

variable {ι α : Type}

/-- A `try_dequeue` is in progress. -/
def Pc.dequeuing : Pc α → Bool
  | .deqHead | .deqTail _ | .deqSlot _ | .deqClaim _ _ | .deqStore _ _ => true
  | _ => false

/-- The condition on a step: no call begins while another of its kind is in progress. -/
def Exclusive (s : State ι α) : Action ι α → Prop
  | .callEnqueue _ _ => ∀ j, (s.pc j).enqueuing = none
  | .callDequeue _ => ∀ j, (s.pc j).dequeuing = false
  | _ => True

instance [Fintype ι] [DecidableEq α] (s : State ι α) :
    (a : Action ι α) → Decidable (Exclusive s a)
  | .callEnqueue _ _ => inferInstanceAs (Decidable (∀ j, (s.pc j).enqueuing = none))
  | .callDequeue _ => inferInstanceAs (Decidable (∀ j, (s.pc j).dequeuing = false))
  | .access _ | .spurious _ => .isTrue trivial

/-- What a call relies on of what it has read. The head of a `try_enqueue` may be old, and then
the window measured from it is longer than the one there is. -/
def Reliable (q : LockFreeTaskQueue α) : Pc α → Prop
  | .enqTail _ head => head < q.capacity ∧
      offset q.capacity q.head q.tail ≤ offset q.capacity head q.tail
  | .enqClaim _ tail => tail = q.tail ∧ q.next q.tail ≠ q.head
  | .deqTail head => head = q.head
  | .deqSlot head => head = q.head ∧ q.head ≠ q.tail
  | .deqClaim head x => head = q.head ∧ q.head ≠ q.tail ∧ q.buffer q.head = some x
  | _ => True

/-- At most one call of each kind is in progress, and each can rely on what it has read. -/
structure Serial (s : State ι α) : Prop where
  one_enqueue : ∀ i j, (s.pc i).enqueuing ≠ none → (s.pc j).enqueuing ≠ none → i = j
  one_dequeue : ∀ i j, (s.pc i).dequeuing = true → (s.pc j).dequeuing = true → i = j
  reliable : ∀ i, Reliable s.queue (s.pc i)

theorem serial_start (q : LockFreeTaskQueue α) : Serial (start ι q) where
  one_enqueue _ _ h := absurd rfl h
  one_dequeue _ _ h := absurd h (by simp [start, Pc.dequeuing])
  reliable _ := trivial

theorem Reads.dequeuing {q : LockFreeTaskQueue α} {pc pc' : Pc α} (h : Reads q pc pc') :
    pc'.dequeuing = false ∨ pc'.dequeuing = pc.dequeuing := by
  cases h with
  | deqHead | deqTail _ | deqSlot _ => exact .inr rfl
  | enqHead | full _ | enqTail _ | enqClaimFails | empty _ | vacated _ | deqClaimFails =>
    exact .inl rfl

theorem Pc.enqueuing_of_storingTail {pc : Pc α} (h : pc.storingTail ≠ none) :
    pc.enqueuing ≠ none := by
  cases pc with
  | enqStore => exact Option.some_ne_none _
  | _ => exact absurd rfl h

theorem Pc.dequeuing_of_storingHead {pc : Pc α} (h : pc.storingHead ≠ none) :
    pc.dequeuing = true := by
  cases pc with
  | deqStore => rfl
  | _ => exact absurd rfl h

namespace Layout

variable {s : State ι α} {xs : List α} {enq deq : Option (ι × α × Nat)} {i : ι}

/-- No thread is at the store of `tail_` while the only `try_enqueue` is elsewhere. -/
theorem enq_eq_none (h : Layout s xs enq deq) (hser : Serial s)
    (henq : (s.pc i).enqueuing ≠ none) (hstore : (s.pc i).storingTail = none) : enq = none := by
  refine h.enq_sole.eq_none fun j => ?_
  by_contra hj
  obtain rfl := hser.one_enqueue i j henq (Pc.enqueuing_of_storingTail hj)
  exact hj hstore

theorem deq_eq_none (h : Layout s xs enq deq) (hser : Serial s)
    (hdeq : (s.pc i).dequeuing = true) (hstore : (s.pc i).storingHead = none) : deq = none := by
  refine h.deq_sole.eq_none fun j => ?_
  by_contra hj
  obtain rfl := hser.one_dequeue i j hdeq (Pc.dequeuing_of_storingHead hj)
  exact hj hstore

/-- The window runs from `head_` over the list, with the slot a dequeuer has vacated in front. -/
theorem offset_tail (h : Layout s xs enq deq) :
    offset s.queue.capacity s.queue.head s.queue.tail = deq.toList.length + xs.length := by
  have hroom := h.room
  rw [h.tail_eq]
  cases deq with
  | none => simpa [front] using offset_index h.head_lt (k := xs.length) (by omega)
  | some d =>
    simp only [Option.toList_some, List.length_singleton] at hroom ⊢
    show offset _ _ (index _ (advance s.queue.capacity s.queue.head) _) = _
    rw [index_advance h.head_lt (by omega), offset_index h.head_lt (by omega), Nat.add_comm]

theorem next_tail_ne (h : Layout s xs enq deq)
    (hroom : offset s.queue.capacity s.queue.head s.queue.tail + 1 < s.queue.capacity) :
    s.queue.next s.queue.tail ≠ s.queue.head := by
  intro hfull
  rw [h.sized.next h.tail_lt, ← index_offset h.head_lt h.tail_lt,
    advance_index_eq_front_iff h.head_lt (by omega)] at hfull
  omega

end Layout

/-! ## What a step does to what the others have read -/

/-- A store to the slot at `tail_` is not to the one a consumer has read. -/
theorem Reliable.store {q : LockFreeTaskQueue α} {pc : Pc α} (h : Reliable q pc) {k : Nat}
    (v : Option α) (hk : k = q.tail ∨ pc.dequeuing = false) : Reliable (q.store k v) pc := by
  cases pc with
  | deqClaim head x =>
    obtain ⟨hhead, hne, hslot⟩ := h
    rcases hk with rfl | hk
    · refine ⟨hhead, hne, ?_⟩
      simp only [LockFreeTaskQueue.store_buffer, LockFreeTaskQueue.store_head]
      rwa [Function.update_of_ne hne]
    · exact absurd hk (by simp [Pc.dequeuing])
  | _ => exact h

namespace Serial

variable {s : State ι α} {i : ι}

theorem issue (h : Serial s) (l : List α) : Serial { s with issued := l } :=
  ⟨h.one_enqueue, h.one_dequeue, h.reliable⟩

variable [DecidableEq ι]

/-- A thread that stays within its call, or leaves it, keeps the calls apart. -/
theorem goto (h : Serial s) {pc : Pc α} {q : LockFreeTaskQueue α} {l m : List α}
    (henq : pc.enqueuing = none ∨ pc.enqueuing = (s.pc i).enqueuing)
    (hdeq : pc.dequeuing = false ∨ pc.dequeuing = (s.pc i).dequeuing)
    (hself : Reliable q pc) (hother : ∀ j, j ≠ i → Reliable q (s.pc j)) :
    Serial ({ s with queue := q, accepted := l, delivered := m }.goto i pc) := by
  have hmem : ∀ j, (Function.update s.pc i pc j).enqueuing ≠ none →
      (s.pc j).enqueuing ≠ none := by
    intro j hj
    rcases Threads.update_cases (fun p : Pc α => p.enqueuing ≠ none) hj with hold | ⟨rfl, hnew⟩
    · exact hold
    · rcases henq with hnone | hsame
      · exact absurd hnone hnew
      · rwa [hsame] at hnew
  have hmem' : ∀ j, (Function.update s.pc i pc j).dequeuing = true →
      (s.pc j).dequeuing = true := by
    intro j hj
    rcases Threads.update_cases (fun p : Pc α => p.dequeuing = true) hj with hold | ⟨rfl, hnew⟩
    · exact hold
    · rcases hdeq with hnone | hsame
      · rw [hnone] at hnew
        exact absurd hnew (by simp)
      · rwa [hsame] at hnew
  exact {
    one_enqueue := fun j k hj hk => h.one_enqueue j k (hmem j hj) (hmem k hk)
    one_dequeue := fun j k hj hk => h.one_dequeue j k (hmem' j hj) (hmem' k hk)
    reliable := by
      intro j
      by_cases hij : j = i
      · subst hij
        rwa [State.goto_pc_self]
      · rw [State.goto_pc_of_ne hij]
        exact hother j hij }

/-- A `try_enqueue` begins while none is in progress. -/
theorem callEnqueue (h : Serial s) {x : α} {l : List α} (hidle : s.pc i = .idle)
    (hfree : ∀ j, (s.pc j).enqueuing = none) :
    Serial ({ s with issued := l }.goto i (.enqHead x)) := by
  have hsole : ∀ j, (Function.update s.pc i (.enqHead x) j).enqueuing ≠ none → j = i := by
    intro j hj
    rcases Threads.update_cases (fun p : Pc α => p.enqueuing ≠ none) hj with hold | ⟨rfl, _⟩
    · exact absurd (hfree j) hold
    · rfl
  refine ⟨fun j k hj hk => (hsole j hj).trans (hsole k hk).symm, ?_, ?_⟩
  · intro j k hj hk
    have hsame := Threads.iff_update (fun p : Pc α => p.dequeuing = true) (f := s.pc) (i := i)
      (b := .enqHead x) (by rw [hidle]; exact Iff.rfl)
    exact h.one_dequeue j k ((hsame j).mp hj) ((hsame k).mp hk)
  · exact Threads.all_update (Reliable s.queue) h.reliable trivial

theorem callDequeue (h : Serial s) (hidle : s.pc i = .idle)
    (hfree : ∀ j, (s.pc j).dequeuing = false) : Serial (s.goto i .deqHead) := by
  have hsole : ∀ j, (Function.update s.pc i .deqHead j).dequeuing = true → j = i := by
    intro j hj
    rcases Threads.update_cases (fun p : Pc α => p.dequeuing = true) hj with hold | ⟨rfl, _⟩
    · rw [hfree j] at hold
      exact absurd hold (by simp)
    · rfl
  refine ⟨?_, fun j k hj hk => (hsole j hj).trans (hsole k hk).symm, ?_⟩
  · intro j k hj hk
    have hsame := Threads.iff_update (fun p : Pc α => p.enqueuing ≠ none) (f := s.pc) (i := i)
      (b := .deqHead) (by rw [hidle]; exact Iff.rfl)
    exact h.one_enqueue j k ((hsame j).mp hj) ((hsame k).mp hk)
  · exact Threads.all_update (Reliable s.queue) h.reliable trivial

end Serial

theorem offset_lt {cap front i : Nat} (hf : front < cap) (hi : i < cap) :
    offset cap front i < cap := by
  unfold offset
  split <;> omega

/-- What the thread goes on to rely on after a load. -/
theorem Reliable.reads {s : State ι α} {xs : List α} {enq deq : Option (ι × α × Nat)}
    (hl : Layout s xs enq deq) {pc pc' : Pc α} (hrel : Reliable s.queue pc)
    (hread : Reads s.queue pc pc') : Reliable s.queue pc' := by
  cases hread with
  | enqHead => exact ⟨hl.head_lt, Nat.le_refl _⟩
  | @enqTail x head room =>
    obtain ⟨hhead, hle⟩ := hrel
    have hlast : offset s.queue.capacity head s.queue.tail + 1 ≠ s.queue.capacity := by
      intro heq
      refine room ?_
      rw [hl.sized.masked hhead, hl.sized.next hl.tail_lt, ← index_offset hhead hl.tail_lt,
        advance_index_eq_front_iff hhead (by omega)]
      exact heq
    have hlt := offset_lt hhead hl.tail_lt
    exact ⟨rfl, hl.next_tail_ne (by omega)⟩
  | deqHead => rfl
  | deqTail nonempty =>
    obtain rfl := hrel
    exact ⟨rfl, nonempty⟩
  | deqSlot slot =>
    obtain ⟨rfl, hne⟩ := hrel
    rw [hl.sized.masked hl.head_lt] at slot
    exact ⟨rfl, hne, slot⟩
  | full | enqClaimFails | empty | vacated | deqClaimFails => trivial

/-- Moving `tail_` leaves a consumer the window it has found not to be empty. -/
theorem Reliable.enqStore [DecidableEq ι] {s : State ι α} {xs : List α}
    {deq : Option (ι × α × Nat)} {i j : ι} {x : α} {t : Nat}
    (hl : Layout s xs (some (i, x, t)) deq) (hser : Serial s) (hpc : s.pc i = .enqStore x t)
    (hij : j ≠ i) : Reliable { s.queue with tail := s.queue.next t } (s.pc j) := by
  have hrel := hser.reliable j
  have hidle : (s.pc j).enqueuing = none := by
    by_contra hj
    exact hij (hser.one_enqueue j i hj (by rw [hpc]; exact Option.some_ne_none _))
  have hgrown := (hl.enqStore hpc).offset_tail
  have hnonempty : (s.pc j).dequeuing = true → (s.pc j).storingHead = none →
      s.queue.head ≠ s.queue.next t := by
    intro hdeq hstore heq
    obtain rfl := hl.deq_eq_none hser hdeq hstore
    simp only [State.goto_queue, ← heq, offset_self, List.length_append] at hgrown
    simp at hgrown
  cases hpcj : s.pc j with
  | enqTail | enqClaim =>
    rw [hpcj] at hidle
    exact absurd hidle (Option.some_ne_none _)
  | deqTail head =>
    rw [hpcj] at hrel
    exact hrel
  | deqSlot =>
    rw [hpcj] at hrel hnonempty
    exact ⟨hrel.1, hnonempty rfl rfl⟩
  | deqClaim =>
    rw [hpcj] at hrel hnonempty
    exact ⟨hrel.1, hnonempty rfl rfl, hrel.2.2⟩
  | _ => trivial

/-- Moving `head_` makes the window shorter than a producer has measured it. -/
theorem Reliable.deqStore [DecidableEq ι] {s : State ι α} {xs : List α}
    {enq : Option (ι × α × Nat)} {i j : ι} {x : α} {h : Nat}
    (hl : Layout s xs enq (some (i, x, h))) (hser : Serial s) (hpc : s.pc i = .deqStore h x)
    (hij : j ≠ i) : Reliable { s.queue with head := s.queue.next h } (s.pc j) := by
  have hrel := hser.reliable j
  have hidle : (s.pc j).dequeuing = false := by
    by_contra hj
    exact hij (hser.one_dequeue j i (by simpa using hj) (by rw [hpc]; rfl))
  have hold := hl.offset_tail
  have hnew := (hl.deqStore hpc).offset_tail
  simp only [State.goto_queue, Option.toList_some, Option.toList_none, List.length_singleton,
    List.length_nil] at hold hnew
  cases hpcj : s.pc j with
  | enqTail x head =>
    rw [hpcj] at hrel
    have hle : offset s.queue.capacity (s.queue.next h) s.queue.tail
        ≤ offset s.queue.capacity head s.queue.tail := by
      have := hrel.2
      omega
    exact ⟨hrel.1, hle⟩
  | enqClaim x tail =>
    rw [hpcj] at hrel
    obtain rfl := hl.enq_eq_none hser (i := j) (by rw [hpcj]; exact Option.some_ne_none _)
      (by rw [hpcj]; rfl)
    have hroom := hl.room
    simp only [Option.toList_some, Option.toList_none, List.length_singleton,
      List.length_nil] at hroom
    have hne := (hl.deqStore hpc).next_tail_ne
      (by simp only [State.goto_queue]; rw [hnew]; omega)
    exact ⟨hrel.1, hne⟩
  | deqTail | deqSlot | deqClaim =>
    rw [hpcj] at hidle
    exact absurd hidle (by simp [Pc.dequeuing])
  | _ => trivial

theorem Serial.current {s : State ι α} (h : Serial s) (a : Action ι α) : Current s a := by
  cases a with
  | access i =>
    have hrel := h.reliable i
    show ClaimCurrent s.queue (s.pc i)
    cases hpc : s.pc i with
    | enqClaim x tail =>
      rw [hpc] at hrel
      obtain ⟨rfl, hroom⟩ := hrel
      exact fun _ => ⟨rfl, hroom⟩
    | deqClaim head x =>
      rw [hpc] at hrel
      exact fun _ => ⟨hrel.1, hrel.2.1⟩
    | _ => trivial
  | _ => trivial

section
variable [DecidableEq ι] [DecidableEq α]

theorem serial_step :
    Preserved (step (ι := ι) (α := α)) Exclusive fun s => LaidOut s ∧ Serial s := by
  intro s a t ⟨hlaid, hser⟩ hok hstep
  refine ⟨laidOut_step s a t hlaid (hser.current a) hstep, ?_⟩
  obtain ⟨xs, enq, deq, hl⟩ := hlaid
  cases Move.of_step hstep with
  | callEnqueue idle _ => exact hser.callEnqueue idle hok
  | callDequeue idle => exact hser.callDequeue idle hok
  | reads _ read =>
    exact hser.goto read.enqueuing read.dequeuing (.reads hl (hser.reliable _) read)
      fun j _ => hser.reliable j
  | @enqClaim i x tail old _ =>
    have hrel := hser.reliable i
    rw [old] at hrel
    refine hser.goto (.inr (congrArg Pc.enqueuing old).symm) (.inl rfl) trivial fun j _ => ?_
    exact (hser.reliable j).store _ (.inl hrel.1)
  | @deqClaim i head x old _ =>
    refine hser.goto (.inl rfl) (.inr (congrArg Pc.dequeuing old).symm) trivial fun j hij => ?_
    refine (hser.reliable j).store _ (.inr ?_)
    by_contra hj
    exact hij (hser.one_dequeue j i (by simpa using hj) (by rw [old]; rfl))
  | @enqStore i x tail old =>
    obtain rfl : enq = some (i, x, tail) := (hl.enq_sole i (x, tail)).mp (by rw [old]; rfl)
    exact hser.goto (.inl rfl) (.inl rfl) trivial fun j hij => .enqStore hl hser old hij
  | @deqStore i head x old =>
    obtain rfl : deq = some (i, x, head) := (hl.deq_sole i (x, head)).mp (by rw [old]; rfl)
    exact hser.goto (.inl rfl) (.inl rfl) trivial fun j hij => .deqStore hl hser old hij

/-- Calls of one kind that do not overlap make only current claims. -/
theorem exclusive_current {s t : State ι α} {as : List (Action ι α)}
    (hrun : Run step Exclusive s as t) (hlaid : LaidOut s) (hser : Serial s) :
    Run step Current s as t :=
  hrun.strengthen serial_step (fun _ a _ h _ _ => h.2.current a) ⟨hlaid, hser⟩

end

/-! ## First in, first out -/

theorem Layout.delivered_prefix {s : State ι α} {xs : List α} {enq deq : Option (ι × α × Nat)}
    (h : Layout s xs enq deq) : s.delivered <+: s.accepted := by
  rw [h.accepted_eq, List.append_assoc]
  exact List.prefix_append ..

/-- What `head_` and `tail_` say at any moment, calls half done or not: the tasks come out in the
order in which they were accepted, none of them twice, and there are never more between the two
than the ring has room for. With no call in progress exactly these are in the window. -/
structure State.FirstInFirstOut (s : State ι α) : Prop where
  order : s.delivered <+: s.accepted
  distinct : s.accepted.Nodup
  length : s.accepted.length = s.delivered.length + s.queue.windowLength
  room : s.queue.windowLength < s.queue.capacity
  quiescent : s.Quiescent → s.Consistent ∧ s.accepted = s.delivered ++ s.queue.window

theorem Layout.window_eq {s : State ι α} {xs : List α} (h : Layout s xs none none) :
    s.queue.window = xs := by
  have hholds : Holds s.queue.capacity s.queue.head s.queue.buffer xs := by
    simpa [front] using h.holds
  have hlen : s.queue.windowLength = xs.length := by
    have hoff : s.queue.windowLength = _ := h.offset_tail
    rw [hoff, Option.toList_none, List.length_nil, Nat.zero_add]
  rw [LockFreeTaskQueue.window, hlen]
  exact hholds.read

theorem firstInFirstOut_of_laidOut {s : State ι α} (hlaid : LaidOut s) (hdis : Distinct s) :
    s.FirstInFirstOut := by
  obtain ⟨xs, enq, deq, hl⟩ := hlaid
  have hwindow : s.queue.windowLength = deq.toList.length + xs.length := hl.offset_tail
  have hroom := hl.room
  refine ⟨hl.delivered_prefix, hdis.accepted_nodup, ?_, by omega, ?_⟩
  · have hmap : (deq.map (·.2.1)).toList.length = deq.toList.length := by cases deq <;> rfl
    rw [hwindow, hl.accepted_eq, List.length_append, List.length_append, hmap, Nat.add_assoc]
  · intro hq
    refine ⟨consistent_of_quiescent ⟨xs, enq, deq, hl⟩ hdis hq, ?_⟩
    obtain rfl := hl.enq_sole.eq_none fun i => by rw [hq i]; rfl
    obtain rfl := hl.deq_sole.eq_none fun i => by rw [hq i]; rfl
    rw [hl.window_eq]
    simpa using hl.accepted_eq

theorem laidOut_new {k : Nat} (hk : 1 ≤ k) (hk' : k < 64) {q : LockFreeTaskQueue α}
    (hq : LockFreeTaskQueue.new (2 ^ k) = .ok q) : LaidOut (start ι q) := by
  rw [LockFreeTaskQueue.new_eq hk', Except.ok.injEq] at hq
  subst hq
  exact laidOut_start ⟨k, hk, hk', rfl, rfl⟩ rfl rfl rfl

section
variable [DecidableEq ι] [DecidableEq α] {k : Nat} {q : LockFreeTaskQueue α}
  {as : List (Action ι α)} {s : State ι α}

theorem current_fifo (hk : 1 ≤ k) (hk' : k < 64) (hq : LockFreeTaskQueue.new (2 ^ k) = .ok q)
    (hrun : Run step Current (start ι q) as s) : s.FirstInFirstOut :=
  firstInFirstOut_of_laidOut (hrun.invariant laidOut_step (laidOut_new hk hk' hq))
    (hrun.toFree.invariant distinct_step (distinct_start q))

/-- **With one `try_enqueue` and one `try_dequeue` at a time the queue is first in, first out.** Any
interleaving of the two, spurious failures included, and whichever threads take turns at them. -/
theorem exclusive_fifo (hk : 1 ≤ k) (hk' : k < 64) (hq : LockFreeTaskQueue.new (2 ^ k) = .ok q)
    (hrun : Run step Exclusive (start ι q) as s) : s.FirstInFirstOut :=
  current_fifo hk hk' hq (exclusive_current hrun (laidOut_new hk hk' hq) (serial_start q))

end

/-- A producer has claimed a slot and a consumer has read `head_`, both half way. -/
def halfWay : List (Action (Fin 2) Nat) :=
  [.callEnqueue 0 10, .access 0, .callDequeue 1, .access 0, .access 1, .access 0]

theorem exclusive_fifo_halfWay :
    ((exec step Exclusive (start (Fin 2) pair) halfWay).get (by decide)).FirstInFirstOut :=
  exclusive_fifo (k := 1) (by decide) (by decide) rfl (.of_isSome (by decide))

end QueueRun
end NexusTask
