import NexusTask.Lib.Threads
import NexusTask.Pool.Steps

/-!
# What a step of the pool can do

`Move s a t` lists the steps by their effect rather than by the line they stand for: most lines of
`submit` and `worker_loop` only move a program counter, and no invariant below tells them apart.
`Move.of_step` is the one place where `step` is unfolded.
-/

set_option autoImplicit false

namespace NexusTask
namespace Pool

open Transition

variable {m n : Nat} {α : Type}

/-- The thread has a notification to issue. -/
def ClientPc.owes : ClientPc n α → Bool
  | .notify _ _ | .resumeNotify | .shutdownNotify => true
  | _ => false

/-- The task of a submission that has placed it and has only its notification left. -/
def ClientPc.due : ClientPc n α → List α
  | .notify x true => [x]
  | _ => []

/-- Inside `shutdown`. -/
def ClientPc.stopping : ClientPc n α → Bool
  | .shutdownStore | .shutdownNotify | .join _ => true
  | _ => false

/-- Inside `shutdown`, past the store. -/
def ClientPc.stopped : ClientPc n α → Bool
  | .shutdownNotify | .join _ => true
  | _ => false

/-- A place that is reached only after `shutdown` was called. -/
def ClientPc.late : ClientPc n α → Bool
  | .notify _ false => true
  | pc => pc.stopping

/-- Neither about to notify nor inside `shutdown`. -/
def ClientPc.plain (pc : ClientPc n α) : Bool := !pc.owes && !pc.stopping

/-- Running through the loop, without `mutex_` and without a task. -/
def WorkerPc.searching : WorkerPc n α → Bool
  | .testRunning | .testPaused | .lock _ | .scan _ => true
  | _ => false

def WorkerPc.holdsMutex : WorkerPc n α → Bool
  | .test _ | .block _ => true
  | _ => false

/-- Blocked, or bound to block with its next step. -/
def WorkerPc.asleep (pc : WorkerPc n α) : Bool := pc.inWindow || pc.isBlocked

namespace ClientPc

variable {pc : ClientPc n α}

theorem plain.not_owes (h : pc.plain = true) : pc.owes = false := by
  simp only [plain, Bool.and_eq_true, Bool.not_eq_true'] at h
  exact h.1

theorem plain.not_stopping (h : pc.plain = true) : pc.stopping = false := by
  simp only [plain, Bool.and_eq_true, Bool.not_eq_true'] at h
  exact h.2

theorem plain.not_stopped (h : pc.plain = true) : pc.stopped = false := by
  have hstopping := plain.not_stopping h
  cases pc <;> first | rfl | exact absurd hstopping (by simp [stopping])

theorem plain.not_late (h : pc.plain = true) : pc.late = false := by
  have howes := plain.not_owes h
  have hstopping := plain.not_stopping h
  cases pc with
  | notify x placed => exact absurd howes (by simp [owes])
  | _ => exact hstopping

theorem plain.due (h : pc.plain = true) : pc.due = [] := by
  cases pc with
  | notify x placed => exact absurd h (by simp [plain, owes])
  | _ => rfl

end ClientPc

namespace WorkerPc

variable {pc : WorkerPc n α}

theorem searching.not_asleep (h : pc.searching = true) : pc.asleep = false := by
  cases pc <;> first | rfl | exact absurd h (by simp [searching])

theorem searching.hand (h : pc.searching = true) : pc.hand = [] := by
  cases pc <;> first | rfl | exact absurd h (by simp [searching])

theorem searching.not_holdsMutex (h : pc.searching = true) : pc.holdsMutex = false := by
  cases pc <;> first | rfl | exact absurd h (by simp [searching])

theorem searching.ne_exited (h : pc.searching = true) : pc ≠ .exited := by
  rintro rfl
  exact absurd h (by simp [searching])

theorem asleep_eq_false : pc.asleep = false ↔ pc.inWindow = false ∧ pc.isBlocked = false := by
  simp [asleep]

@[simp] theorem woken_not_blocked (pc : WorkerPc n α) : pc.woken.isBlocked = false := by
  cases pc <;> rfl

@[simp] theorem woken_inWindow (pc : WorkerPc n α) : pc.woken.inWindow = pc.inWindow := by
  cases pc <;> rfl

@[simp] theorem woken_hand (pc : WorkerPc n α) : pc.woken.hand = pc.hand := by
  cases pc <;> rfl

@[simp] theorem woken_holdsMutex (pc : WorkerPc n α) : pc.woken.holdsMutex = pc.holdsMutex := by
  cases pc <;> rfl

@[simp] theorem woken_asleep (pc : WorkerPc n α) : pc.woken.asleep = pc.inWindow := by
  simp [asleep]

theorem woken_eq_exited : pc.woken = .exited ↔ pc = .exited := by
  cases pc <;> simp [woken]

end WorkerPc

namespace State

variable (s : State m n α) (w v : Fin n) (c d : Fin m) (pc : WorkerPc n α) (cpc : ClientPc n α)

theorem setWorker_self : (s.setWorker w pc).workers w = pc := Function.update_self ..
theorem setClient_self : (s.setClient c cpc).clients c = cpc := Function.update_self ..

variable {s w v c d pc cpc}

theorem setWorker_of_ne (h : v ≠ w) : (s.setWorker w pc).workers v = s.workers v :=
  Function.update_of_ne h ..
theorem setClient_of_ne (h : d ≠ c) : (s.setClient c cpc).clients d = s.clients d :=
  Function.update_of_ne h ..

theorem setClient_cases (P : ClientPc n α → Prop) (h : P ((s.setClient c cpc).clients d)) :
    P (s.clients d) ∨ d = c ∧ P cpc := Threads.update_cases P h

theorem setWorker_all (P : WorkerPc n α → Prop) (hpc : P pc) (hold : ∀ v, P (s.workers v)) :
    P ((s.setWorker w pc).workers v) := Threads.all_update P hold hpc v

@[simp] theorem accept_running (x : α) : (s.accept x).running = s.running := by
  unfold accept; split <;> rfl
@[simp] theorem accept_paused (x : α) : (s.accept x).paused = s.paused := by
  unfold accept; split <;> rfl
@[simp] theorem accept_queues (x : α) : (s.accept x).queues = s.queues := by
  unfold accept; split <;> rfl
@[simp] theorem accept_mutex (x : α) : (s.accept x).mutex = s.mutex := by
  unfold accept; split <;> rfl
@[simp] theorem accept_workers (x : α) : (s.accept x).workers = s.workers := by
  unfold accept; split <;> rfl
@[simp] theorem accept_clients (x : α) : (s.accept x).clients = s.clients := by
  unfold accept; split <;> rfl
@[simp] theorem accept_shutdownCalled (x : α) :
    (s.accept x).shutdownCalled = s.shutdownCalled := by
  unfold accept; split <;> rfl
@[simp] theorem accept_shutdownReturned (x : α) :
    (s.accept x).shutdownReturned = s.shutdownReturned := by
  unfold accept; split <;> rfl
@[simp] theorem accept_taken (x : α) : (s.accept x).taken = s.taken := by
  unfold accept; split <;> rfl
@[simp] theorem accept_placed (x : α) : (s.accept x).placed = s.placed := by
  unfold accept; split <;> rfl
theorem accept_of_called {s : State m n α} (h : s.shutdownCalled = true) (x : α) :
    s.accept x = s := if_pos h
@[simp] theorem accept_shutdownNotified (x : α) :
    (s.accept x).shutdownNotified = s.shutdownNotified := by
  unfold accept; split <;> rfl

end State

/-! ## The moves -/

inductive Move (s : State m n α) : Action m n α → State m n α → Prop
  | quiet {a c pc} (next : Nat) (old : (s.clients c).plain = true) (new : pc.plain = true) :
      Move s a ({ s with nextWorker := next }.setClient c pc)
  | callShutdown {a c} (old : s.clients c = .idle) :
      Move s a ({ s with shutdownCalled := true }.setClient c .shutdownStore)
  | placed {a c r x} (old : (s.clients c).plain = true) :
      Move s a ({ s with queues := Function.update s.queues r (s.queues r ++ [x]),
                         placed := s.placed ++ [x] }.setClient c (.notify x true))
  | gaveUp {a c x} (old : (s.clients c).plain = true) (stopped : s.running = false) :
      Move s a (s.setClient c (.notify x false))
  | notifiedNobody {c x placed} (old : s.clients c = .notify x placed)
      (nobody : ∀ w, (s.workers w).isBlocked = false) :
      Move s (.client c) ((s.accept x).setClient c .idle)
  | notified {c w x placed k} (old : s.clients c = .notify x placed)
      (blocked : s.workers w = .blocked k) :
      Move s (.wake c w) (((s.accept x).setWorker w (.lock k)).setClient c .idle)
  | paused {a c} (old : s.clients c = .pauseStore) :
      Move s a ({ s with paused := true }.setClient c .idle)
  | resumed {a c} (old : s.clients c = .resumeStore) :
      Move s a ({ s with paused := false }.setClient c .resumeNotify)
  | resumeNotified {c} (old : s.clients c = .resumeNotify) :
      Move s (.client c) (s.notifyAll.setClient c .idle)
  | stopped {c} (old : s.clients c = .shutdownStore) :
      Move s (.client c) ({ s with running := false }.setClient c .shutdownNotify)
  | stopNotified {c} (old : s.clients c = .shutdownNotify) :
      Move s (.client c) ({ s.notifyAll with shutdownNotified := true }.setClient c (.join 0))
  | joined {a c w} (old : s.clients c = .join w.val) (exited : s.workers w = .exited) :
      Move s a (s.setClient c (.join (w.val + 1)))
  | returned {a c k} (old : s.clients c = .join k) (last : n ≤ k) :
      Move s a ({ s with shutdownReturned := true }.setClient c .idle)
  | searched {a w pc} (old : (s.workers w).searching = true) (new : pc.searching = true) :
      Move s a (s.setWorker w pc)
  | acquires {a w k} (old : s.workers w = .lock k) (free : s.mutex = none) :
      Move s a ({ s with mutex := some w }.setWorker w (.test k))
  | passes {a w k pc} (old : s.workers w = .test k) (new : pc.searching = true) :
      Move s a ({ s with mutex := none }.setWorker w pc)
  | exits {w} (old : s.workers w = .testRunning) (stopped : s.running = false) :
      Move s (.worker w) (s.setWorker w .exited)
  | settles {a w k} (old : s.workers w = .test k) (no : s.predicate k = false) :
      Move s a (s.setWorker w (.block k))
  | blocks {a w k} (old : s.workers w = .block k) :
      Move s a ({ s with mutex := none }.setWorker w (.blocked k))
  | takes {a w r x xs} (old : (s.workers w).searching = true) (front : s.queues r = x :: xs) :
      Move s a ({ s with queues := Function.update s.queues r xs,
                         taken := s.taken ++ [x] }.setWorker w (.execute x))
  | finishes {w x} (old : s.workers w = .execute x) :
      Move s (.worker w) ({ s with executed := s.executed ++ [x] }.setWorker w .testRunning)
  | spurious {a w k} (old : s.workers w = .blocked k) : Move s a (s.setWorker w (.lock k))

namespace Move

variable {s t : State m n α} {a : Action m n α} {c : Fin m} {w : Fin n}

theorem of_place {r : QueueRef n} {x : α} {full : ClientPc n α}
    (old : (s.clients c).plain = true) (new : full.plain = true) :
    Move s a (s.place c r x full) := by
  unfold State.place
  cases h : tryEnqueue s.queues r x with
  | none => exact .quiet s.nextWorker old new
  | some q =>
    obtain ⟨_, rfl⟩ := tryEnqueue_eq_some h
    exact .placed old

theorem of_call {op : Call α} (old : s.clients c = .idle) :
    Move s a ({ s with shutdownCalled := s.shutdownCalled || op.isShutdown }.setClient c
      op.entry) := by
  have hidle : (s.clients c).plain = true := by rw [old]; rfl
  cases op with
  | shutdown =>
    simp only [Call.isShutdown, Bool.or_true]
    exact .callShutdown old
  | _ =>
    simp only [Call.isShutdown, Bool.or_false]
    exact .quiet s.nextWorker hidle rfl

theorem of_clientStep (h : clientStep s c = some t) : Move s (.client c) t := by
  have hplain : ∀ {pc : ClientPc n α}, s.clients c = pc → pc.plain = true →
      (s.clients c).plain = true := fun hpc hp => hpc ▸ hp
  unfold clientStep at h
  split at h
  next => exact absurd h (by simp)
  next hpc =>
    obtain rfl := Option.some.inj h
    exact .quiet s.nextWorker (hplain hpc rfl) (by split <;> rfl)
  next hpc =>
    split at h
    · obtain rfl := Option.some.inj h
      exact .quiet _ (hplain hpc rfl) rfl
    · exact absurd h (by simp)
  next hpc =>
    obtain rfl := Option.some.inj h
    exact .of_place (hplain hpc rfl) rfl
  next kind x p hpc =>
    obtain rfl := Option.some.inj h
    exact .of_place (hplain hpc rfl) (by cases kind <;> rfl)
  next hpc =>
    obtain rfl := Option.some.inj h
    exact .of_place (hplain hpc rfl) rfl
  next x p hpc =>
    obtain rfl := Option.some.inj h
    cases hrun : s.running with
    | true => exact .quiet s.nextWorker (hplain hpc rfl) rfl
    | false => exact .gaveUp (hplain hpc rfl) hrun
  next hpc =>
    split at h
    next nobody =>
      obtain rfl := Option.some.inj h
      exact .notifiedNobody hpc nobody
    next => exact absurd h (by simp)
  next hpc => obtain rfl := Option.some.inj h; exact .paused hpc
  next hpc => obtain rfl := Option.some.inj h; exact .resumed hpc
  next hpc => obtain rfl := Option.some.inj h; exact .resumeNotified hpc
  next hpc => obtain rfl := Option.some.inj h; exact .stopped hpc
  next hpc => obtain rfl := Option.some.inj h; exact .stopNotified hpc
  next k hpc =>
    split at h
    next hk =>
      split at h
      next hexit =>
        obtain rfl := Option.some.inj h
        exact .joined (w := ⟨k, hk⟩) hpc hexit
      next => exact absurd h (by simp)
    next hk =>
      obtain rfl := Option.some.inj h
      exact .returned hpc (Nat.le_of_not_lt hk)

theorem of_workerStep (h : workerStep s w = some t) : Move s (.worker w) t := by
  have hsearch : ∀ {pc : WorkerPc n α}, s.workers w = pc → pc.searching = true →
      (s.workers w).searching = true := fun hpc hp => hpc ▸ hp
  unfold workerStep at h
  split at h
  next hpc =>
    obtain rfl := Option.some.inj h
    cases hrun : s.running with
    | true => exact .searched (hsearch hpc rfl) rfl
    | false => exact .exits hpc hrun
  next hpc =>
    obtain rfl := Option.some.inj h
    exact .searched (hsearch hpc rfl) (by split <;> rfl)
  next hpc =>
    split at h
    next hfree =>
      obtain rfl := Option.some.inj h
      exact .acquires hpc hfree
    next => exact absurd h (by simp)
  next k hpc =>
    split at h
    next =>
      obtain rfl := Option.some.inj h
      exact .passes hpc (by cases k <;> rfl)
    next hno =>
      obtain rfl := Option.some.inj h
      exact .settles hpc (Bool.eq_false_iff.mpr hno)
  next hpc => obtain rfl := Option.some.inj h; exact .blocks hpc
  next => exact absurd h (by simp)
  next hpc => obtain rfl := Option.some.inj h; exact .searched (hsearch hpc rfl) rfl
  next hpc =>
    split at h
    next =>
      obtain rfl := Option.some.inj h
      exact .searched (hsearch hpc rfl) rfl
    next hfront =>
      obtain rfl := Option.some.inj h
      exact .takes (hsearch hpc rfl) hfront
  next hpc => obtain rfl := Option.some.inj h; exact .finishes hpc
  next => exact absurd h (by simp)

/-- A worker's step: it takes the first task of the queue it looks into, or it changes no queue and
comes to a place where it has no task. -/
theorem workerStep_cases (h : workerStep s w = some t) :
    (∃ r x xs, (s.workers w).hand = [] ∧ s.queues r = x :: xs ∧
      t.queues = Function.update s.queues r xs ∧ t.clients = s.clients ∧
      t.workers = Function.update s.workers w (.execute x)) ∨
    (t.queues = s.queues ∧ t.clients = s.clients ∧ ∃ pc : WorkerPc n α, pc.hand = [] ∧
      t.workers = Function.update s.workers w pc) := by
  unfold workerStep at h
  split at h
  next =>
    obtain rfl := Option.some.inj h
    exact .inr ⟨rfl, rfl, _, by split <;> rfl, rfl⟩
  next =>
    obtain rfl := Option.some.inj h
    exact .inr ⟨rfl, rfl, _, by split <;> rfl, rfl⟩
  next =>
    split at h
    next => obtain rfl := Option.some.inj h; exact .inr ⟨rfl, rfl, _, rfl, rfl⟩
    next => exact absurd h (by simp)
  next k hpc =>
    split at h
    next =>
      obtain rfl := Option.some.inj h
      exact .inr ⟨rfl, rfl, _, by cases k <;> rfl, rfl⟩
    next => obtain rfl := Option.some.inj h; exact .inr ⟨rfl, rfl, _, rfl, rfl⟩
  next => obtain rfl := Option.some.inj h; exact .inr ⟨rfl, rfl, _, rfl, rfl⟩
  next => exact absurd h (by simp)
  next => obtain rfl := Option.some.inj h; exact .inr ⟨rfl, rfl, _, rfl, rfl⟩
  next hpc =>
    split at h
    next => obtain rfl := Option.some.inj h; exact .inr ⟨rfl, rfl, _, rfl, rfl⟩
    next hfront =>
      obtain rfl := Option.some.inj h
      exact .inl ⟨_, _, _, hpc ▸ rfl, hfront, rfl, rfl, rfl⟩
  next => obtain rfl := Option.some.inj h; exact .inr ⟨rfl, rfl, _, rfl, rfl⟩
  next => exact absurd h (by simp)

/-- Every step is one of the moves. -/
theorem of_step (h : step s a = some t) : Move s a t := by
  cases a with
  | call c op =>
    simp only [step] at h
    split at h
    next hpc => obtain rfl := Option.some.inj h; exact .of_call hpc
    next => exact absurd h (by simp)
  | client c => exact .of_clientStep h
  | wake c w =>
    simp only [step] at h
    split at h
    next hc hw => obtain rfl := Option.some.inj h; exact .notified hc hw
    next => exact absurd h (by simp)
  | timeOut c =>
    simp only [step] at h
    split at h
    next hpc =>
      obtain rfl := Option.some.inj h
      exact .quiet s.nextWorker (by rw [hpc]; rfl) rfl
    next => exact absurd h (by simp)
  | worker w => exact .of_workerStep h
  | spurious w =>
    simp only [step] at h
    split at h
    next hpc => obtain rfl := Option.some.inj h; exact .spurious hpc
    next => exact absurd h (by simp)

/-- `running_` is never set again. -/
theorem stays_stopped (hm : Move s a t) (h : s.running = false) : t.running = false := by
  cases hm with
  | stopped old => rfl
  | notifiedNobody old nobody => exact (State.accept_running ..).trans h
  | notified old blocked => exact (State.accept_running ..).trans h
  | _ => exact h

/-- A submission that returns after `shutdown` was called is not among the accepted ones. -/
theorem accepted_eq (hm : Move s a t) (h : s.shutdownCalled = true) :
    t.accepted = s.accepted := by
  cases hm with
  | notifiedNobody old nobody => rw [State.accept_of_called h]; rfl
  | notified old blocked => rw [State.accept_of_called h]; rfl
  | _ => rfl

theorem taken_sublist (hm : Move s a t) : s.taken.Sublist t.taken := by
  cases hm with
  | notifiedNobody old nobody => simp [State.setClient]
  | notified old blocked => simp [State.setClient, State.setWorker]
  | takes old front => exact List.sublist_append_left ..
  | _ => exact List.Sublist.refl _

/-- A worker that has left stays away. -/
theorem stays_exited (hm : Move s a t) (h : s.workers w = .exited) : t.workers w = .exited := by
  have hset : ∀ {u : State m n α} {v : Fin n} {pc : WorkerPc n α}, u.workers = s.workers →
      s.workers v ≠ .exited → (u.setWorker v pc).workers w = .exited := by
    intro u v pc hu hv
    have hne : w ≠ v := by rintro rfl; exact hv h
    rw [State.setWorker_of_ne hne, hu, h]
  cases hm with
  | notifiedNobody old nobody => exact (congrFun (State.accept_workers ..) w).trans h
  | notified old blocked => exact hset (State.accept_workers ..) (by simp [blocked])
  | resumeNotified old => exact WorkerPc.woken_eq_exited.mpr h
  | stopNotified old => exact WorkerPc.woken_eq_exited.mpr h
  | searched old new => exact hset rfl (WorkerPc.searching.ne_exited old)
  | acquires old free => exact hset (u := { s with mutex := _ }) rfl (by simp [old])
  | passes old new => exact hset (u := { s with mutex := _ }) rfl (by simp [old])
  | exits old stopped => exact hset rfl (by simp [old])
  | settles old no => exact hset rfl (by simp [old])
  | blocks old => exact hset (u := { s with mutex := _ }) rfl (by simp [old])
  | takes old front =>
    exact hset (u := { s with queues := _, taken := _ }) rfl (WorkerPc.searching.ne_exited old)
  | finishes old => exact hset (u := { s with executed := _ }) rfl (by simp [old])
  | spurious old => exact hset rfl (by simp [old])
  | _ => exact h

/-- A worker has the task it executes until its own next step. -/
theorem stays_executing {x : α} (hm : Move s a t) (h : s.workers w = .execute x)
    (ha : a ≠ .worker w) : t.workers w = .execute x := by
  have hset : ∀ {u : State m n α} {v : Fin n} {pc : WorkerPc n α}, u.workers = s.workers →
      s.workers v ≠ .execute x → (u.setWorker v pc).workers w = .execute x := by
    intro u v pc hu hv
    have hne : w ≠ v := by rintro rfl; exact hv h
    rw [State.setWorker_of_ne hne, hu, h]
  have hsearching : ∀ {v : Fin n}, (s.workers v).searching = true →
      s.workers v ≠ .execute x := by
    intro v hv heq
    rw [heq] at hv
    exact absurd hv (by simp [WorkerPc.searching])
  cases hm with
  | notifiedNobody old nobody => exact (congrFun (State.accept_workers ..) w).trans h
  | notified old blocked => exact hset (State.accept_workers ..) (by simp [blocked])
  | resumeNotified old => exact congrArg WorkerPc.woken h
  | stopNotified old => exact congrArg WorkerPc.woken h
  | searched old new => exact hset rfl (hsearching old)
  | acquires old free => exact hset (u := { s with mutex := _ }) rfl (by simp [old])
  | passes old new => exact hset (u := { s with mutex := _ }) rfl (by simp [old])
  | exits old stopped => exact hset rfl (by simp [old])
  | settles old no => exact hset rfl (by simp [old])
  | blocks old => exact hset (u := { s with mutex := _ }) rfl (by simp [old])
  | takes old front => exact hset (u := { s with queues := _, taken := _ }) rfl (hsearching old)
  | @finishes v y old =>
    have hne : w ≠ v := by rintro rfl; exact ha rfl
    exact (State.setWorker_of_ne (s := { s with executed := _ }) hne).trans h
  | spurious old => exact hset rfl (by simp [old])
  | _ => exact h

/-- A worker leaves by reading `running_` as false at the head of its loop. -/
theorem exited_cases (hm : Move s a t) (h : t.workers w = .exited) :
    s.workers w = .exited ∨
      (a = .worker w ∧ s.workers w = .testRunning ∧ s.running = false ∧
        t = s.setWorker w .exited) := by
  have hset : ∀ {u : State m n α} {v : Fin n} {pc : WorkerPc n α}, u.workers = s.workers →
      pc ≠ .exited → (u.setWorker v pc).workers w = .exited → s.workers w = .exited := by
    intro u v pc hu hpc hw
    by_cases hv : w = v
    · subst hv
      rw [State.setWorker_self] at hw
      exact absurd hw hpc
    · rw [State.setWorker_of_ne hv, hu] at hw
      exact hw
  cases hm with
  | notifiedNobody old nobody =>
    exact .inl ((congrFun (State.accept_workers ..) w).symm.trans h)
  | @notified c v x _ k old blocked =>
    have hlock : WorkerPc.lock k ≠ (.exited : WorkerPc n α) := by simp
    exact .inl (hset (u := s.accept x) (v := v) (State.accept_workers ..) hlock h)
  | resumeNotified old => exact .inl (WorkerPc.woken_eq_exited.mp h)
  | stopNotified old => exact .inl (WorkerPc.woken_eq_exited.mp h)
  | searched old new => exact .inl (hset rfl (WorkerPc.searching.ne_exited new) h)
  | acquires old free => exact .inl (hset (u := { s with mutex := _ }) rfl (by simp) h)
  | passes old new =>
    exact .inl (hset (u := { s with mutex := _ }) rfl (WorkerPc.searching.ne_exited new) h)
  | @exits v old stopped =>
    by_cases hv : w = v
    · subst hv
      exact .inr ⟨rfl, old, stopped, rfl⟩
    · rw [State.setWorker_of_ne hv] at h
      exact .inl h
  | settles old no => exact .inl (hset rfl (by simp) h)
  | blocks old => exact .inl (hset (u := { s with mutex := _ }) rfl (by simp) h)
  | takes old front => exact .inl (hset (u := { s with queues := _, taken := _ }) rfl (by simp) h)
  | finishes old => exact .inl (hset (u := { s with executed := _ }) rfl (by simp) h)
  | spurious old => exact .inl (hset rfl (by simp) h)
  | _ => exact .inl h

end Move
end Pool
end NexusTask
