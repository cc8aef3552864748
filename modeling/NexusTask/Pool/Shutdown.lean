import Mathlib.Data.Fintype.Option
import Mathlib.Data.Fintype.Prod
import NexusTask.Lib.Tally
import NexusTask.Pool.Moves

/-!
# Graceful shutdown

A worker leaves `worker_loop` at the first `running_.load` that returns false, whatever the queues
hold. So `shutdown` is certain to be graceful only when nothing is left to wait for: `Drained` is
the condition that every submission that returned before `shutdown` was called has been taken by the
time `running_` is cleared. Whoever took it executes it before looking at `running_` again.
Occurrences are counted, since nothing keeps a client from submitting one task twice.
-/

set_option autoImplicit false

namespace NexusTask
namespace Pool

open Transition

variable {m n : Nat} {α : Type} [DecidableEq α]

namespace State

def inQueues (s : State m n α) (x : α) : Nat := tally s.queues x

/-- How often `x` is in the hands of a worker. -/
def inHands (s : State m n α) (x : α) : Nat := tally (WorkerPc.hand ∘ s.workers) x

/-- How many submissions of `x` have placed it and not returned. -/
def unreturned (s : State m n α) (x : α) : Nat := tally (ClientPc.due ∘ s.clients) x

/-- What a graceful shutdown leaves behind: every accepted submission was executed, and what is
still queued was placed by other submissions. -/
structure Graceful (s : State m n α) : Prop where
  executed : ∀ x, s.accepted.count x ≤ s.executed.count x
  queued : ∀ x, s.accepted.count x + s.inQueues x ≤ s.placed.count x

theorem inHands_setWorker (s : State m n α) (w : Fin n) (pc : WorkerPc n α) (x : α) :
    (s.setWorker w pc).inHands x + (s.workers w).hand.count x = s.inHands x + pc.hand.count x := by
  unfold inHands setWorker
  rw [Function.comp_update]
  exact tally_update ..

theorem inHands_same {s : State m n α} {w : Fin n} {pc : WorkerPc n α}
    (h : pc.hand = (s.workers w).hand) (x : α) : (s.setWorker w pc).inHands x = s.inHands x := by
  have hsum := s.inHands_setWorker w pc x
  rw [h] at hsum
  exact Nat.add_right_cancel hsum

theorem unreturned_setClient (s : State m n α) (c : Fin m) (pc : ClientPc n α) (x : α) :
    (s.setClient c pc).unreturned x + (s.clients c).due.count x
      = s.unreturned x + pc.due.count x := by
  unfold unreturned setClient
  rw [Function.comp_update]
  exact tally_update ..

theorem unreturned_same {s : State m n α} {c : Fin m} {pc : ClientPc n α}
    (h : pc.due = (s.clients c).due) (x : α) :
    (s.setClient c pc).unreturned x = s.unreturned x := by
  have hsum := s.unreturned_setClient c pc x
  rw [h] at hsum
  exact Nat.add_right_cancel hsum

theorem inHands_notifyAll (s : State m n α) (x : α) : s.notifyAll.inHands x = s.inHands x := by
  unfold inHands notifyAll
  congr 1
  exact funext fun w => WorkerPc.woken_hand _

end State

/-! ## No task is lost or executed twice -/

/-- What was placed has been taken or is still queued, and what was taken has been executed or is
being executed. -/
structure Ledger (s : State m n α) : Prop where
  placed_eq : ∀ x, s.placed.count x = s.taken.count x + s.inQueues x
  taken_eq : ∀ x, s.taken.count x = s.executed.count x + s.inHands x

theorem ledger_start : Ledger (start m n α) where
  placed_eq x := by
    have h : (start m n α).inQueues x = 0 := tally_eq_zero (fun _ => rfl) x
    rw [h]; rfl
  taken_eq x := by
    have h : (start m n α).inHands x = 0 := tally_eq_zero (fun _ => rfl) x
    rw [h]; rfl

namespace Ledger

variable {s t : State m n α} {a : Action m n α}

theorem accept (h : Ledger s) (x : α) : Ledger (s.accept x) := by
  unfold State.accept
  split
  · exact h
  · exact ⟨h.placed_eq, h.taken_eq⟩

theorem setWorker (h : Ledger s) {w : Fin n} {pc : WorkerPc n α}
    (hsame : pc.hand = (s.workers w).hand) : Ledger (s.setWorker w pc) :=
  ⟨h.placed_eq, fun x => (h.taken_eq x).trans (by rw [State.inHands_same hsame]; rfl)⟩

theorem place (h : Ledger s) (r : QueueRef n) (x : α) :
    Ledger { s with queues := Function.update s.queues r (s.queues r ++ [x]),
                    placed := s.placed ++ [x] } where
  placed_eq y := by
    have hsum := tally_update s.queues r (s.queues r ++ [x]) y
    have hold := h.placed_eq y
    simp only [State.inQueues, List.count_append] at hsum hold ⊢
    omega
  taken_eq := h.taken_eq

theorem take (h : Ledger s) {w : Fin n} {r : QueueRef n} {x : α} {xs : List α}
    (hhand : (s.workers w).hand = []) (front : s.queues r = x :: xs) :
    Ledger ({ s with queues := Function.update s.queues r xs,
                     taken := s.taken ++ [x] }.setWorker w (.execute x)) where
  placed_eq y := by
    have hsum := tally_update s.queues r xs y
    have hold := h.placed_eq y
    rw [front, ← List.singleton_append, List.count_append] at hsum
    simp only [State.setWorker, State.inQueues, List.count_append] at hold ⊢
    omega
  taken_eq y := by
    have hsum := s.inHands_setWorker w (.execute x) y
    have hold := h.taken_eq y
    rw [hhand, List.count_nil] at hsum
    have hnew : (s.taken ++ [x]).count y = s.executed.count y +
        (s.setWorker w (.execute x)).inHands y := by
      rw [List.count_append]
      simp only [WorkerPc.hand] at hsum
      omega
    exact hnew

theorem finish (h : Ledger s) {w : Fin n} {x : α} (old : s.workers w = .execute x) :
    Ledger ({ s with executed := s.executed ++ [x] }.setWorker w .testRunning) where
  placed_eq := h.placed_eq
  taken_eq y := by
    have hsum := s.inHands_setWorker w .testRunning y
    have hold := h.taken_eq y
    rw [old] at hsum
    have hnew : s.taken.count y = (s.executed ++ [x]).count y +
        (s.setWorker w .testRunning).inHands y := by
      rw [List.count_append]
      simp only [WorkerPc.hand, List.count_nil] at hsum
      omega
    exact hnew

theorem move (h : Ledger s) (hm : Move s a t) : Ledger t := by
  cases hm with
  | @placed _ _ r x old => exact ⟨(h.place r x).placed_eq, (h.place r x).taken_eq⟩
  | @notifiedNobody _ x _ old nobody => exact ⟨(h.accept x).placed_eq, (h.accept x).taken_eq⟩
  | @notified c w x _ k old blocked =>
    have hwoken : Ledger ((s.accept x).setWorker w (.lock k)) :=
      (h.accept x).setWorker (by simp [blocked, WorkerPc.hand])
    exact ⟨hwoken.placed_eq, hwoken.taken_eq⟩
  | resumeNotified old =>
    exact ⟨h.placed_eq, fun x => (h.taken_eq x).trans (by rw [← State.inHands_notifyAll]; rfl)⟩
  | stopNotified old =>
    exact ⟨h.placed_eq, fun x => (h.taken_eq x).trans (by rw [← State.inHands_notifyAll]; rfl)⟩
  | searched old new =>
    exact h.setWorker ((WorkerPc.searching.hand new).trans (WorkerPc.searching.hand old).symm)
  | @acquires _ w k old free =>
    have hset : Ledger (s.setWorker w (.test k)) := h.setWorker (congrArg WorkerPc.hand old).symm
    exact ⟨hset.placed_eq, hset.taken_eq⟩
  | passes old new =>
    have hset := h.setWorker ((WorkerPc.searching.hand new).trans (congrArg WorkerPc.hand old).symm)
    exact ⟨hset.placed_eq, hset.taken_eq⟩
  | exits old stopped => exact h.setWorker (congrArg WorkerPc.hand old).symm
  | settles old no => exact h.setWorker (congrArg WorkerPc.hand old).symm
  | @blocks _ w k old =>
    have hset : Ledger (s.setWorker w (.blocked k)) :=
      h.setWorker (congrArg WorkerPc.hand old).symm
    exact ⟨hset.placed_eq, hset.taken_eq⟩
  | takes old front => exact h.take (WorkerPc.searching.hand old) front
  | finishes old => exact h.finish old
  | spurious old => exact h.setWorker (congrArg WorkerPc.hand old).symm
  | _ => exact ⟨h.placed_eq, h.taken_eq⟩

end Ledger

/-! ## Accepted submissions -/

/-- A submission accepted, or about to return, has placed its task; and a client inside `shutdown`,
or told that the pool is stopped, means that `shutdown` was called. -/
structure Accounts (s : State m n α) : Prop where
  accepted_le : ∀ x, s.accepted.count x + s.unreturned x ≤ s.placed.count x
  called : s.running = false → s.shutdownCalled = true
  late : ∀ c, (s.clients c).late = true → s.shutdownCalled = true

theorem accounts_start : Accounts (start m n α) where
  accepted_le x := by
    have h : (start m n α).unreturned x = 0 := tally_eq_zero (fun _ => rfl) x
    rw [h]
    exact Nat.le_refl _
  called h := absurd h (by simp [start])
  late c h := absurd h (by simp [start, ClientPc.late, ClientPc.stopping])

namespace Accounts

variable {s t : State m n α} {a : Action m n α}

theorem le_setClient (h : Accounts s) {c : Fin m} {pc : ClientPc n α}
    (hold : (s.clients c).due = []) (hnew : pc.due = []) (x : α) :
    s.accepted.count x + (s.setClient c pc).unreturned x ≤ s.placed.count x := by
  rw [State.unreturned_same (hnew.trans hold.symm)]
  exact h.accepted_le x

/-- A submission that returns turns its placed task into an accepted one. -/
theorem le_return (h : Accounts s) {c : Fin m} {x : α} {placed : Bool}
    (old : s.clients c = .notify x placed) (y : α) :
    (s.accept x).accepted.count y + (s.setClient c .idle).unreturned y ≤ s.placed.count y := by
  have hsum := s.unreturned_setClient c .idle y
  have hle := h.accepted_le y
  rw [old] at hsum
  cases placed with
  | false =>
    -- It gave up on a stopped pool, so it is not among the accepted ones.
    have hcalled : s.shutdownCalled = true := h.late c (by rw [old]; rfl)
    rw [State.accept_of_called hcalled]
    simp only [ClientPc.due, List.count_nil] at hsum
    omega
  | true =>
    have haccept : (s.accept x).accepted.count y ≤ s.accepted.count y + [x].count y := by
      unfold State.accept
      split
      · exact Nat.le_add_right _ _
      · exact Nat.le_of_eq List.count_append
    simp only [ClientPc.due, List.count_nil] at hsum
    omega

theorem accepted_le_move (h : Accounts s) (hm : Move s a t) (x : α) :
    t.accepted.count x + t.unreturned x ≤ t.placed.count x := by
  cases hm with
  | quiet next old new =>
    exact h.le_setClient (ClientPc.plain.due old) (ClientPc.plain.due new) x
  | callShutdown old => exact h.le_setClient (congrArg ClientPc.due old) rfl x
  | @placed _ c r y old =>
    have hsum := s.unreturned_setClient c (.notify y true) x
    have hle := h.accepted_le x
    rw [ClientPc.plain.due old] at hsum
    have hnew : s.accepted.count x + (s.setClient c (.notify y true)).unreturned x
        ≤ (s.placed ++ [y]).count x := by
      rw [List.count_append]
      simp only [ClientPc.due, List.count_nil] at hsum
      omega
    exact hnew
  | gaveUp old stopped => exact h.le_setClient (ClientPc.plain.due old) rfl x
  | notifiedNobody old nobody =>
    have hle := h.le_return old x
    simpa [State.setClient, State.unreturned] using hle
  | notified old blocked =>
    have hle := h.le_return old x
    simpa [State.setClient, State.setWorker, State.unreturned] using hle
  | paused old => exact h.le_setClient (congrArg ClientPc.due old) rfl x
  | resumed old => exact h.le_setClient (congrArg ClientPc.due old) rfl x
  | resumeNotified old => exact h.le_setClient (congrArg ClientPc.due old) rfl x
  | stopped old => exact h.le_setClient (congrArg ClientPc.due old) rfl x
  | stopNotified old => exact h.le_setClient (congrArg ClientPc.due old) rfl x
  | joined old exited => exact h.le_setClient (congrArg ClientPc.due old) rfl x
  | returned old last => exact h.le_setClient (congrArg ClientPc.due old) rfl x
  | _ => exact h.accepted_le x

theorem called_move (h : Accounts s) (hm : Move s a t) (hstop : t.running = false) :
    t.shutdownCalled = true := by
  cases hm with
  | callShutdown old => rfl
  | @stopped c old => exact h.late c (by rw [old]; rfl)
  | notifiedNobody old nobody =>
    exact (State.accept_shutdownCalled ..).trans
      (h.called ((State.accept_running ..).symm.trans hstop))
  | notified old blocked =>
    exact (State.accept_shutdownCalled ..).trans
      (h.called ((State.accept_running ..).symm.trans hstop))
  | _ => exact h.called hstop

theorem late_move (h : Accounts s) (hm : Move s a t) {c : Fin m}
    (hc : (t.clients c).late = true) : t.shutdownCalled = true := by
  -- Where the step leaves the flag as it is, a client is late as before or by where it goes.
  have hset : ∀ {u : State m n α} {d : Fin m} {pc : ClientPc n α}, u.clients = s.clients →
      (pc.late = true → s.shutdownCalled = true) →
      ((u.setClient d pc).clients c).late = true → s.shutdownCalled = true := by
    intro u d pc hu hpc hnew
    rcases State.setClient_cases (·.late = true) hnew with hold | ⟨_, hnew⟩
    · rw [hu] at hold
      exact h.late c hold
    · exact hpc hnew
  have hnone : ∀ {pc : ClientPc n α}, pc.late = false → pc.late = true →
      s.shutdownCalled = true := fun hno hyes => absurd (hno.symm.trans hyes) (by simp)
  cases hm with
  | quiet next old new =>
    exact hset (u := { s with nextWorker := next }) rfl (hnone (ClientPc.plain.not_late new)) hc
  | callShutdown old => rfl
  | placed old => exact hset (u := { s with queues := _, placed := _ }) rfl (hnone rfl) hc
  | gaveUp old stopped => exact h.called stopped
  | notifiedNobody old nobody =>
    exact (State.accept_shutdownCalled ..).trans (hset (State.accept_clients ..) (hnone rfl) hc)
  | @notified _ w x _ k old blocked =>
    exact (State.accept_shutdownCalled ..).trans
      (hset (u := (s.accept x).setWorker w (.lock k)) (State.accept_clients ..) (hnone rfl) hc)
  | paused old => exact hset (u := { s with paused := true }) rfl (hnone rfl) hc
  | resumed old => exact hset (u := { s with paused := false }) rfl (hnone rfl) hc
  | resumeNotified old => exact hset (u := s.notifyAll) rfl (hnone rfl) hc
  | @stopped d old => exact h.late d (by rw [old]; rfl)
  | @stopNotified d old => exact h.late d (by rw [old]; rfl)
  | @joined _ d _ old exited => exact h.late d (by rw [old]; rfl)
  | @returned _ d _ old last => exact h.late d (by rw [old]; rfl)
  | _ => exact h.late c hc

theorem move (h : Accounts s) (hm : Move s a t) : Accounts t :=
  ⟨h.accepted_le_move hm, h.called_move hm, fun _ => h.late_move hm⟩

end Accounts

/-! ## The workers leave -/

/-- The condition on a step: when `shutdown` stores `running_`, every accepted submission has been
taken. -/
def Drained (s : State m n α) : Action m n α → Prop
  | .client c =>
    s.clients c = .shutdownStore → ∀ x ∈ s.accepted, s.accepted.count x ≤ s.taken.count x
  | _ => True

instance (s : State m n α) : (a : Action m n α) → Decidable (Drained s a)
  | .client c =>
    inferInstanceAs (Decidable (s.clients c = .shutdownStore → ∀ x ∈ s.accepted, _ ≤ _))
  | .call _ _ | .worker _ | .wake _ _ | .timeOut _ | .spurious _ => .isTrue trivial

/-- Workers leave only a stopped pool, `shutdown` returns when all have left, and on a stopped pool
every accepted submission has been taken. -/
structure Departed (s : State m n α) : Prop where
  stopped : ∀ w, s.workers w = .exited → s.running = false
  joined : ∀ c k, s.clients c = .join k → ∀ w : Fin n, w.val < k → s.workers w = .exited
  returned : s.shutdownReturned = true → ∀ w, s.workers w = .exited
  drained : s.running = false → ∀ x, s.accepted.count x ≤ s.taken.count x

theorem departed_start : Departed (start m n α) where
  stopped w h := absurd h (by simp [start])
  joined c k h := absurd h (by simp [start])
  returned h := absurd h (by simp [start])
  drained h := absurd h (by simp [start])

namespace Departed

variable {s t : State m n α} {a : Action m n α}

theorem stopped_move (h : Departed s) (hm : Move s a t) {w : Fin n}
    (hw : t.workers w = .exited) : t.running = false := by
  refine hm.stays_stopped ?_
  rcases hm.exited_cases hw with hold | ⟨_, _, hstop, _⟩
  · exact h.stopped w hold
  · exact hstop

theorem joined_move (h : Departed s) (hm : Move s a t) {c : Fin m} {k : Nat}
    (hc : t.clients c = .join k) {w : Fin n} (hw : w.val < k) : t.workers w = .exited := by
  refine hm.stays_exited ?_
  -- Only `shutdown` itself takes a client to a `join`.
  have hset : ∀ {u : State m n α} {d : Fin m} {pc : ClientPc n α}, u.clients = s.clients →
      (pc = .join k → s.workers w = .exited) →
      (u.setClient d pc).clients c = .join k → s.workers w = .exited := by
    intro u d pc hu hpc hnew
    rcases State.setClient_cases (· = .join k) hnew with hold | ⟨_, hnew⟩
    · exact h.joined c k ((congrFun hu c).symm.trans hold) w hw
    · exact hpc hnew
  cases hm with
  | quiet next old new =>
    exact hset (u := { s with nextWorker := next }) rfl
      (fun hpc => absurd new (by simp [hpc, ClientPc.plain, ClientPc.stopping])) hc
  | callShutdown old => exact hset (u := { s with shutdownCalled := true }) rfl (by simp) hc
  | placed old => exact hset (u := { s with queues := _, placed := _ }) rfl (by simp) hc
  | gaveUp old stopped => exact hset rfl (by simp) hc
  | notifiedNobody old nobody => exact hset (State.accept_clients ..) (by simp) hc
  | @notified _ v x _ i old blocked =>
    exact hset (u := (s.accept x).setWorker v (.lock i)) (State.accept_clients ..) (by simp) hc
  | paused old => exact hset (u := { s with paused := true }) rfl (by simp) hc
  | resumed old => exact hset (u := { s with paused := false }) rfl (by simp) hc
  | resumeNotified old => exact hset (u := s.notifyAll) rfl (by simp) hc
  | stopped old => exact hset (u := { s with running := false }) rfl (by simp) hc
  | stopNotified old =>
    refine hset (u := { s.notifyAll with shutdownNotified := true }) rfl (fun hpc => ?_) hc
    obtain rfl := ClientPc.join.inj hpc
    exact absurd hw (Nat.not_lt_zero _)
  | @joined _ d v old exited =>
    refine hset rfl (fun hpc => ?_) hc
    obtain rfl := ClientPc.join.inj hpc
    rcases Nat.lt_succ_iff_lt_or_eq.mp hw with hlt | heq
    · exact h.joined d v old w hlt
    · rw [Fin.ext heq]
      exact exited
  | returned old last => exact hset (u := { s with shutdownReturned := true }) rfl (by simp) hc
  | _ => exact h.joined c k hc w hw

theorem returned_move (h : Departed s) (hm : Move s a t) (hret : t.shutdownReturned = true)
    (w : Fin n) : t.workers w = .exited := by
  refine hm.stays_exited ?_
  cases hm with
  | @returned _ c k old last => exact h.joined c k old w (Nat.lt_of_lt_of_le w.isLt last)
  | notifiedNobody old nobody =>
    exact h.returned ((State.accept_shutdownReturned ..).symm.trans hret) w
  | notified old blocked =>
    exact h.returned ((State.accept_shutdownReturned ..).symm.trans hret) w
  | _ => exact h.returned hret w

/-- The pool is stopped by this step or was before; then nothing is accepted any more. -/
theorem drained_move (h : Departed s) (haccounts : Accounts s) (ok : Drained s a) (hm : Move s a t)
    (hstop : t.running = false) (x : α) : t.accepted.count x ≤ t.taken.count x := by
  have hbefore : s.running = false → t.accepted.count x ≤ t.taken.count x := by
    intro hold
    rw [hm.accepted_eq (haccounts.called hold)]
    exact (h.drained hold x).trans (hm.taken_sublist.count_le x)
  cases hm with
  | stopped old =>
    show s.accepted.count x ≤ s.taken.count x
    by_cases hx : x ∈ s.accepted
    · exact ok old x hx
    · rw [List.count_eq_zero.mpr hx]
      exact Nat.zero_le _
  | notifiedNobody old nobody => exact hbefore ((State.accept_running ..).symm.trans hstop)
  | notified old blocked => exact hbefore ((State.accept_running ..).symm.trans hstop)
  | _ => exact hbefore hstop

theorem move (h : Departed s) (haccounts : Accounts s) (ok : Drained s a) (hm : Move s a t) :
    Departed t where
  stopped _ := h.stopped_move hm
  joined _ _ hc _ := h.joined_move hm hc
  returned := h.returned_move hm
  drained := h.drained_move haccounts ok hm

end Departed

/-- **A shutdown that finds every accepted submission taken is graceful**: when it returns, every
submission that returned before it was called has been executed, and what is queued came later. -/
theorem shutdown_graceful (hn : 0 < n) {as : List (Action m n α)} {s : State m n α}
    (h : Run step Drained (start m n α) as s) (hret : s.shutdownReturned = true) : s.Graceful := by
  have hpreserved : Preserved step Drained
      (fun s : State m n α => Ledger s ∧ Accounts s ∧ Departed s) := by
    rintro s a t ⟨hledger, haccounts, hdeparted⟩ ok hs
    have hm := Move.of_step hs
    exact ⟨hledger.move hm, haccounts.move hm, hdeparted.move haccounts ok hm⟩
  obtain ⟨hledger, haccounts, hdeparted⟩ :=
    h.invariant hpreserved ⟨ledger_start, accounts_start, departed_start⟩
  have hgone := hdeparted.returned hret
  have hdrained := hdeparted.drained (hdeparted.stopped ⟨0, hn⟩ (hgone _))
  have hhands : ∀ x, s.inHands x = 0 := fun x =>
    tally_eq_zero (fun w => by rw [Function.comp_apply, hgone w]; rfl) x
  constructor
  · intro x
    have htaken := hledger.taken_eq x
    have hle := hdrained x
    rw [hhands x] at htaken
    omega
  · intro x
    have hplaced := hledger.placed_eq x
    have hle := hdrained x
    omega

/-- Task 5 is submitted twice. `shutdown` stores `running_` while the worker executes it for the
second time; between the call and the store it has been placed once more, and that is left. -/
def drainedRun : List (Action 2 1 Nat) :=
  .call 0 (.submit 5 .normal) :: List.replicate 4 (.client 0) ++
  .call 0 (.submit 5 .normal) :: List.replicate 4 (.client 0) ++ List.replicate 6 (.worker 0) ++
  .call 1 (.submit 5 .normal) :: .client 1 :: .call 0 .shutdown :: List.replicate 3 (.client 1) ++
  List.replicate 5 (.worker 0) ++ [.client 0] ++ List.replicate 2 (.worker 0) ++
  List.replicate 3 (.client 0)

theorem shutdown_graceful_drainedRun :
    ((exec step Drained (start 2 1 Nat) drainedRun).get (by decide +kernel)).Graceful :=
  shutdown_graceful (by decide) (.of_isSome (by decide +kernel)) (by decide +kernel)

/-- The worker has not begun its loop when the task is accepted and `shutdown` called. -/
def abandonedRun : List (Action 1 1 Nat) :=
  [.call 0 (.submit 5 .normal), .client 0, .client 0, .client 0, .client 0,
   .call 0 .shutdown, .client 0, .worker 0, .client 0, .client 0, .client 0]

/-- The state `abandonedRun` ends in: 5 was accepted and is still queued. -/
def abandoned : State 1 1 Nat :=
  (exec step free (start 1 1 Nat) abandonedRun).get (by decide +kernel)

theorem shutdown_abandons : ¬ ∀ (as : List (Action 1 1 Nat)) (s : State 1 1 Nat),
    Run step free (start 1 1 Nat) as s → s.shutdownReturned = true → s.Graceful := by
  intro hall
  have hgraceful : abandoned.Graceful := hall abandonedRun _ (.of_isSome _) (by decide +kernel)
  exact absurd (hgraceful.executed 5) (by decide +kernel)

end Pool
end NexusTask
