import NexusTask.Lib.Threads
import NexusTask.Pool.Moves

/-!
# Lost wake-ups

`submit`, `resume` and `shutdown` change what the wait predicates read, and notify, without holding
`mutex_`. A worker in the window between its test and blocking is not yet there to be notified, so a
notification issued then can be lost. `Heard` excludes exactly that: a `notify_one` or `resume` that
finds the whole pool in the window, and a `shutdown` that finds any worker there.

The window is guarded by `mutex_`, so it holds one worker at most. With two workers or more the
first case cannot arise, and a pool never sleeps over queued work (`not_stuck_of_two_workers`).
-/

set_option autoImplicit false

namespace NexusTask
namespace Pool

open Transition

variable {m n : Nat} {α : Type}

namespace State

variable (s : State m n α)

/-- There is work, nobody paused or stopped the pool, and everyone sleeps. -/
structure Stuck : Prop where
  running : s.running = true
  unpaused : s.paused = false
  work : ∃ r, s.queues r ≠ []
  blocked : ∀ w, (s.workers w).isBlocked = true
  nobody : ∀ c, (s.clients c).owes = false

/-- A worker blocked after `shutdown` has issued its notification. -/
structure Orphaned : Prop where
  stopped : s.running = false
  notified : s.shutdownNotified = true
  blocked : ∃ w, (s.workers w).isBlocked = true

/-- The notification client `c` is about to issue is needed and reaches nobody: there is work, no
other notification is coming, and every worker is in the window. -/
structure Missed (c : Fin m) : Prop where
  running : s.running = true
  unpaused : s.paused = false
  work : hasPendingWork s.queues = true
  last : ∀ d, d ≠ c → (s.clients d).owes = false
  window : ∀ w, (s.workers w).inWindow = true

end State

theorem State.Missed.of_accept {s : State m n α} {c : Fin m} {x : α}
    (h : (s.accept x).Missed c) : s.Missed c where
  running := by simpa using h.running
  unpaused := by simpa using h.unpaused
  work := by simpa using h.work
  last := by simpa using h.last
  window := by simpa using h.window

/-- The condition on a step: a notification reaches a worker where one is needed. -/
def Heard (s : State m n α) : Action m n α → Prop
  | .client c =>
      match s.clients c with
      | .notify _ _ | .resumeNotify => ¬ s.Missed c
      | .shutdownNotify => ∀ w, (s.workers w).inWindow = false
      | _ => True
  | _ => True

instance (s : State m n α) (c : Fin m) : Decidable (s.Missed c) :=
  decidable_of_iff
    (s.running = true ∧ s.paused = false ∧ hasPendingWork s.queues = true ∧
      (∀ d, d ≠ c → (s.clients d).owes = false) ∧ ∀ w, (s.workers w).inWindow = true)
    ⟨fun ⟨h₁, h₂, h₃, h₄, h₅⟩ => ⟨h₁, h₂, h₃, h₄, h₅⟩,
      fun ⟨h₁, h₂, h₃, h₄, h₅⟩ => ⟨h₁, h₂, h₃, h₄, h₅⟩⟩

instance (s : State m n α) : (a : Action m n α) → Decidable (Heard s a)
  | .client c => by
    simp only [Heard]
    split <;> infer_instance
  | .call _ _ | .wake _ _ | .timeOut _ | .worker _ | .spurious _ => .isTrue trivial

/-! ## Somebody is awake -/

/-- A pool with work to do and no notification on its way has a worker that is not going to
block. -/
def Awake (s : State m n α) : Prop :=
  s.running = true → s.paused = false → (∃ r, s.queues r ≠ []) →
    (∀ c, (s.clients c).owes = false) → ∃ w, (s.workers w).asleep = false

theorem exists_work_iff {q : Queues n α} : (∃ r, q r ≠ []) ↔ hasPendingWork q = true := by
  constructor
  · rintro ⟨r, hr⟩
    by_contra hno
    exact hr ((hasPendingWork_eq_false_iff q).mp (Bool.eq_false_iff.mpr hno) r)
  · intro hwork
    by_contra hno
    push Not at hno
    rw [(hasPendingWork_eq_false_iff q).mpr hno] at hwork
    exact absurd hwork (by simp)

namespace Awake

variable {s t : State m n α} {a : Action m n α} {c : Fin m} {w : Fin n}

theorem of_owes (h : (s.clients c).owes = true) : Awake s := fun _ _ _ hnobody =>
  absurd (hnobody c) (by simp [h])

theorem of_awake (h : (s.workers w).asleep = false) : Awake s := fun _ _ _ _ => ⟨w, h⟩

/-- A client that owed nothing goes on owing nothing, or starts to. -/
theorem setClient (h : Awake s) {pc : ClientPc n α} (old : (s.clients c).owes = false) :
    Awake (s.setClient c pc) := by
  intro hrun hpause hwork hnobody
  refine h hrun hpause hwork fun d => ?_
  by_cases hd : d = c
  · rw [hd]; exact old
  · rw [← State.setClient_of_ne hd]
    exact hnobody d

/-- After a `notify_all` only a worker in the window is still going to block. -/
theorem notifyAll {pc : ClientPc n α} (heard : ¬ s.Missed c) :
    Awake (s.notifyAll.setClient c pc) := by
  intro hrun hpause hwork hnobody
  by_contra hasleep
  refine heard ⟨hrun, hpause, exists_work_iff.mp hwork, fun d hd => ?_, fun w => ?_⟩
  · have hother := hnobody d
    rwa [State.setClient_of_ne hd] at hother
  · by_contra hw
    refine hasleep ⟨w, ?_⟩
    show (s.workers w).woken.asleep = false
    rw [WorkerPc.woken_asleep]
    exact Bool.eq_false_iff.mpr hw

/-- A `notify_one` that wakes nobody leaves a worker awake, unless all are in the window. -/
theorem notifyNobody {pc : ClientPc n α} (heard : ¬ s.Missed c)
    (nobody : ∀ w, (s.workers w).isBlocked = false) : Awake (s.setClient c pc) := by
  have hsame : s.notifyAll = s := by
    have hworkers : (fun w => (s.workers w).woken) = s.workers := funext fun w => by
      have hw := nobody w
      cases hpc : s.workers w with
      | blocked k => rw [hpc] at hw; exact absurd hw (by simp [WorkerPc.isBlocked])
      | _ => rfl
    simp only [State.notifyAll, hworkers]
  have hall : Awake (s.notifyAll.setClient c pc) := notifyAll heard
  rwa [hsame] at hall

/-- A false predicate means the worker has a reason to sleep. -/
theorem settle {k : Wait} {pc : WorkerPc n α} (no : s.predicate k = false) :
    Awake (s.setWorker w pc) := by
  intro hrun hpause hwork _
  have hr : s.running = true := hrun
  have hp : s.paused = false := hpause
  cases k with
  | resumed => simp [State.predicate, hp] at no
  | work =>
    have hidle : hasPendingWork s.queues = false := by simpa [State.predicate, hr] using no
    rw [exists_work_iff] at hwork
    exact absurd hwork (by simp [State.setWorker, hidle])

/-- A worker that was not awake does not matter. -/
theorem setWorker (h : Awake s) {pc : WorkerPc n α} (old : (s.workers w).asleep = true) :
    Awake (s.setWorker w pc) := by
  intro hrun hpause hwork hnobody
  obtain ⟨v, hv⟩ := h hrun hpause hwork hnobody
  have hne : v ≠ w := by
    rintro rfl
    rw [old] at hv
    exact absurd hv (by simp)
  exact ⟨v, by rwa [State.setWorker_of_ne hne]⟩

end Awake

/-- A `shutdown` that is past its store has stopped the pool. -/
structure Alert (s : State m n α) : Prop where
  awake : Awake s
  stopped : ∀ c, (s.clients c).stopped = true → s.running = false

theorem alert_start : Alert (start m n α) where
  awake := fun _ _ hwork _ => absurd rfl hwork.choose_spec
  stopped _ h := absurd h (by simp [start, ClientPc.stopped])

namespace Alert

variable {s t : State m n α} {a : Action m n α}

theorem awake_move (h : Alert s) (hm : Move s a t)
    (heard : ∀ c, a = .client c → (s.clients c).owes = true → ¬ s.Missed c) : Awake t := by
  have hwakes : ∀ {u : State m n α} {v : Fin n} {pc : WorkerPc n α}, pc.asleep = false →
      Awake (u.setWorker v pc) := fun {u v pc} hpc =>
    .of_awake (w := v) (by rw [State.setWorker_self]; exact hpc)
  have howes : ∀ {u : State m n α} {d : Fin m} {pc : ClientPc n α}, pc.owes = true →
      Awake (u.setClient d pc) := fun {u d pc} hpc =>
    .of_owes (c := d) (by rw [State.setClient_self]; exact hpc)
  cases hm with
  | quiet next old new =>
    exact Awake.setClient (s := { s with nextWorker := next }) h.awake
      (ClientPc.plain.not_owes old)
  | callShutdown old =>
    exact Awake.setClient (s := { s with shutdownCalled := true }) h.awake
      (congrArg ClientPc.owes old)
  | placed old => exact howes rfl
  | gaveUp old stopped => exact howes rfl
  | notifiedNobody old nobody =>
    have hheard := heard _ rfl (congrArg ClientPc.owes old)
    exact .notifyNobody (fun hm => hheard (State.Missed.of_accept hm)) (by simpa using nobody)
  | @notified c w x _ k old blocked =>
    exact .of_awake (w := w) (by
      show (((s.accept x).setWorker w (.lock k)).workers w).asleep = false
      rw [State.setWorker_self]
      rfl)
  | paused old => exact fun _ hpause => absurd hpause (by simp [State.setClient])
  | resumed old => exact howes rfl
  | resumeNotified old => exact .notifyAll (heard _ rfl (congrArg ClientPc.owes old))
  | stopped old => exact fun hrun => absurd hrun (by simp [State.setClient])
  | @stopNotified c old =>
    have hstop : s.running = false := h.stopped c (by rw [old]; rfl)
    exact fun hrun => absurd hrun (by simp [State.setClient, State.notifyAll, hstop])
  | joined old exited => exact h.awake.setClient (congrArg ClientPc.owes old)
  | returned old last =>
    exact Awake.setClient (s := { s with shutdownReturned := true }) h.awake
      (congrArg ClientPc.owes old)
  | searched old new => exact hwakes (WorkerPc.searching.not_asleep new)
  | acquires old free => exact hwakes rfl
  | passes old new => exact hwakes (WorkerPc.searching.not_asleep new)
  | exits old stopped => exact hwakes rfl
  | settles old no => exact .settle no
  | blocks old =>
    exact Awake.setWorker (s := { s with mutex := none }) h.awake (congrArg WorkerPc.asleep old)
  | takes old front => exact hwakes rfl
  | finishes old => exact hwakes rfl
  | spurious old => exact hwakes rfl

theorem stopped_move (h : Alert s) (hm : Move s a t) {c : Fin m}
    (hc : (t.clients c).stopped = true) : t.running = false := by
  -- A client that moves to a stopped place comes from one, or has just stored `running_`.
  have hset : ∀ {u : State m n α} {d : Fin m} {pc : ClientPc n α},
      (∀ c, (u.clients c).stopped = true → s.running = false) →
      (pc.stopped = true → s.running = false) →
      ((u.setClient d pc).clients c).stopped = true → s.running = false := by
    intro u d pc hold hpc hnew
    rcases State.setClient_cases (·.stopped = true) hnew with hc | ⟨_, hc⟩
    · exact hold c hc
    · exact hpc hc
  have hnone : ∀ {pc : ClientPc n α}, pc.stopped = false → pc.stopped = true → s.running = false :=
    fun hno hyes => absurd (hno.symm.trans hyes) (by simp)
  cases hm with
  | quiet next old new =>
    exact hset (u := { s with nextWorker := next }) h.stopped
      (hnone (ClientPc.plain.not_stopped new)) hc
  | callShutdown old =>
    exact hset (u := { s with shutdownCalled := true }) h.stopped (hnone rfl) hc
  | @placed _ _ r x old =>
    exact hset (u := { s with queues := _, placed := _ }) h.stopped (hnone rfl) hc
  | gaveUp old stopped => exact stopped
  | notifiedNobody old nobody =>
    exact (State.accept_running ..).trans
      (hset (by simpa using h.stopped) (hnone rfl) hc)
  | @notified _ w x _ k old blocked =>
    exact (State.accept_running ..).trans
      (hset (u := (s.accept x).setWorker w (.lock k)) (by simpa [State.setWorker] using h.stopped)
        (hnone rfl) hc)
  | paused old => exact hset (u := { s with paused := true }) h.stopped (hnone rfl) hc
  | resumed old => exact hset (u := { s with paused := false }) h.stopped (hnone rfl) hc
  | resumeNotified old => exact hset (u := s.notifyAll) h.stopped (hnone rfl) hc
  | stopped old => rfl
  | @stopNotified d old => exact h.stopped d (congrArg ClientPc.stopped old)
  | @joined _ d _ old exited => exact h.stopped d (congrArg ClientPc.stopped old)
  | @returned _ d _ old last => exact h.stopped d (congrArg ClientPc.stopped old)
  | _ => exact h.stopped c hc

theorem move (h : Alert s) (hm : Move s a t)
    (heard : ∀ c, a = .client c → (s.clients c).owes = true → ¬ s.Missed c) : Alert t :=
  ⟨h.awake_move hm heard, fun _ => h.stopped_move hm⟩

end Alert

/-- Once `shutdown` has notified, the pool is stopped and nobody sleeps. -/
def Released (s : State m n α) : Prop :=
  s.shutdownNotified = true → s.running = false ∧ ∀ w, (s.workers w).asleep = false

namespace Released

variable {s t : State m n α} {a : Action m n α}

theorem move (h : Released s) (halert : Alert s) (ok : Heard s a) (hm : Move s a t) :
    Released t := by
  have hset : ∀ {u : State m n α} {v : Fin n} {pc : WorkerPc n α}, pc.asleep = false →
      (∀ w, (u.workers w).asleep = false) → ∀ w, ((u.setWorker v pc).workers w).asleep = false :=
    fun hpc hold w => State.setWorker_all (·.asleep = false) hpc hold
  -- A step of a worker that is not going to sleep, in a pool that has been released.
  have hwakes : ∀ {u : State m n α} {v : Fin n} {pc : WorkerPc n α}, pc.asleep = false →
      u.workers = s.workers → u.running = s.running → s.shutdownNotified = true →
      u.running = false ∧ ∀ w, ((u.setWorker v pc).workers w).asleep = false :=
    fun hpc hw hr hn => ⟨hr.trans (h hn).1, hset hpc (hw ▸ (h hn).2)⟩
  intro hn
  cases hm with
  | notifiedNobody old nobody =>
    obtain ⟨hstop, hawake⟩ := h ((State.accept_shutdownNotified ..).symm.trans hn)
    exact ⟨(State.accept_running ..).trans hstop, by simpa [State.setClient] using hawake⟩
  | notified old blocked =>
    obtain ⟨hstop, hawake⟩ := h ((State.accept_shutdownNotified ..).symm.trans hn)
    exact ⟨(State.accept_running ..).trans hstop, hset rfl (by simpa using hawake)⟩
  | resumeNotified old =>
    refine ⟨(h hn).1, fun w => ?_⟩
    show (s.workers w).woken.asleep = false
    rw [WorkerPc.woken_asleep]
    exact (WorkerPc.asleep_eq_false.mp ((h hn).2 w)).1
  | @stopNotified c old =>
    simp only [Heard, old] at ok
    refine ⟨halert.stopped c (congrArg ClientPc.stopped old), fun w => ?_⟩
    show (s.workers w).woken.asleep = false
    rw [WorkerPc.woken_asleep]
    exact ok w
  | stopped old => exact ⟨rfl, (h hn).2⟩
  | @settles _ w k old no =>
    have hstop : s.running = false := (h hn).1
    cases k <;> simp [State.predicate, hstop] at no
  | @blocks _ w k old =>
    have hawake := (h hn).2 w
    rw [old] at hawake
    exact absurd hawake (by simp [WorkerPc.asleep, WorkerPc.inWindow])
  | searched old new => exact hwakes (WorkerPc.searching.not_asleep new) rfl rfl hn
  | acquires old free => exact hwakes (u := { s with mutex := _ }) rfl rfl rfl hn
  | passes old new =>
    exact hwakes (u := { s with mutex := _ }) (WorkerPc.searching.not_asleep new) rfl rfl hn
  | exits old stopped => exact hwakes rfl rfl rfl hn
  | takes old front => exact hwakes (u := { s with queues := _, taken := _ }) rfl rfl rfl hn
  | finishes old => exact hwakes (u := { s with executed := _ }) rfl rfl rfl hn
  | spurious old => exact hwakes rfl rfl rfl hn
  | _ => exact h hn

end Released

theorem Heard.not_missed {s : State m n α} {a : Action m n α} {c : Fin m} (h : Heard s a)
    (halert : Alert s) (ha : a = .client c) (howes : (s.clients c).owes = true) :
    ¬ s.Missed c := by
  subst ha
  intro hmissed
  simp only [Heard] at h
  cases hpc : s.clients c with
  | notify x placed => rw [hpc] at h; exact h hmissed
  | resumeNotify => rw [hpc] at h; exact h hmissed
  | shutdownNotify =>
    have hstop := halert.stopped c (by rw [hpc]; rfl)
    exact absurd (hstop.symm.trans hmissed.running) (by simp)
  | _ => rw [hpc] at howes; exact absurd howes (by simp [ClientPc.owes])

theorem preserved_alert :
    Preserved step Heard (fun s : State m n α => Alert s ∧ Released s) := by
  rintro s a t ⟨halert, hreleased⟩ ok hs
  have hm := Move.of_step hs
  exact ⟨halert.move hm fun _ => ok.not_missed halert, hreleased.move halert ok hm⟩

/-- **No wake-up is lost** as long as every notification that is needed is heard: no state has work
queued and everyone asleep, and after `shutdown` has notified no worker is left blocked. -/
theorem wakeups_heard {as : List (Action m n α)} {s : State m n α}
    (h : Run step Heard (start m n α) as s) : ¬ s.Stuck ∧ ¬ s.Orphaned := by
  obtain ⟨halert, hreleased⟩ := h.invariant preserved_alert
    ⟨alert_start, fun hn => absurd hn (by simp [start])⟩
  constructor
  · intro hstuck
    obtain ⟨w, hw⟩ := halert.awake hstuck.running hstuck.unpaused hstuck.work hstuck.nobody
    rw [WorkerPc.asleep_eq_false, hstuck.blocked w] at hw
    exact absurd hw.2 (by simp)
  · intro horphan
    obtain ⟨w, hw⟩ := horphan.blocked
    have hawake := (hreleased horphan.notified).2 w
    rw [WorkerPc.asleep_eq_false, hw] at hawake
    exact absurd hawake.2 (by simp)

/-! ## One worker and one client -/

/-- The worker finds every queue empty and blocks. A submission wakes it, it executes the task, and
`shutdown` finds it awake. -/
def heardRun : List (Action 1 1 Nat) :=
  List.replicate 14 (.worker 0) ++
    [.call 0 (.submit 5 .normal), .client 0, .client 0, .client 0, .wake 0 0] ++
    List.replicate 8 (.worker 0) ++
    [.call 0 .shutdown, .client 0, .client 0, .worker 0, .client 0, .client 0]

theorem wakeups_heard_heardRun :
    ¬ ((exec step Heard (start 1 1 Nat) heardRun).get (by decide +kernel)).Stuck ∧
      ¬ ((exec step Heard (start 1 1 Nat) heardRun).get (by decide +kernel)).Orphaned :=
  wakeups_heard (.of_isSome (by decide +kernel))

/-- The worker has found no work and is in the window when the task is enqueued and notified; then
it blocks. -/
def lostSubmit : List (Action 1 1 Nat) :=
  List.replicate 13 (.worker 0) ++
    [.call 0 (.submit 5 .normal), .client 0, .client 0, .client 0, .client 0, .worker 0]

/-- The same with `shutdown` in place of `submit`. -/
def lostShutdown : List (Action 1 1 Nat) :=
  List.replicate 13 (.worker 0) ++ [.call 0 .shutdown, .client 0, .client 0, .worker 0]

def asleepOverWork : State 1 1 Nat :=
  (exec step free (start 1 1 Nat) lostSubmit).get (by decide +kernel)

def asleepInShutdown : State 1 1 Nat :=
  (exec step free (start 1 1 Nat) lostShutdown).get (by decide +kernel)

/-- Without the condition both kinds of wake-up are lost. -/
theorem wakeups_lost :
    (¬ ∀ (as : List (Action 1 1 Nat)) (s : State 1 1 Nat),
      Run step free (start 1 1 Nat) as s → ¬ s.Stuck) ∧
    (¬ ∀ (as : List (Action 1 1 Nat)) (s : State 1 1 Nat),
      Run step free (start 1 1 Nat) as s → ¬ s.Orphaned) := by
  constructor
  · intro hall
    have hstuck : asleepOverWork.Stuck := {
      running := by decide +kernel
      unpaused := by decide +kernel
      work := ⟨(some 0, .normal), by decide +kernel⟩
      blocked := by decide +kernel
      nobody := by decide +kernel }
    exact hall lostSubmit _ (.of_isSome _) hstuck
  · intro hall
    have horphan : asleepInShutdown.Orphaned := {
      stopped := by decide +kernel
      notified := by decide +kernel
      blocked := ⟨0, by decide +kernel⟩ }
    exact hall lostShutdown _ (.of_isSome _) horphan

/-! ## Two workers -/

/-- The worker at the mutex is the one `mutex_` names. -/
def Locked (s : State m n α) : Prop :=
  Sole s.workers (fun pc => if pc.holdsMutex then some () else none) (s.mutex.map (·, ()))

theorem locked_start : Locked (start m n α) := Sole.vacant fun _ => rfl

theorem Locked.move {s t : State m n α} {a : Action m n α} (h : Locked s) (hm : Move s a t) :
    Locked t := by
  have hstay : ∀ {w : Fin n} {pc : WorkerPc n α}, (s.workers w).holdsMutex = false →
      pc.holdsMutex = false → Locked (s.setWorker w pc) := by
    intro w pc hold hnew
    exact Sole.stay h (by simp [hold]) (by simp [hnew])
  have haccept : ∀ x, Locked (s.accept x) := fun x => by
    unfold Locked
    rw [State.accept_workers, State.accept_mutex]
    exact h
  -- The holder is the worker that moves, and gives the mutex back.
  have hleave : ∀ {w : Fin n} {pc : WorkerPc n α}, (s.workers w).holdsMutex = true →
      pc.holdsMutex = false → Locked ({ s with mutex := none }.setWorker w pc) := by
    intro w pc hold hnew
    have howner := (h w ()).mp (by simp [hold])
    have hsole : Sole s.workers (fun pc => if pc.holdsMutex then some () else none)
        (some (w, ())) := howner ▸ h
    exact Sole.leave hsole (by simp [hnew])
  cases hm with
  | notifiedNobody old nobody => exact haccept _
  | @notified _ w x _ k old blocked =>
    exact Sole.stay (haccept x) (by simp [blocked, WorkerPc.holdsMutex]) rfl
  | resumeNotified old => exact fun w y => by simpa [State.notifyAll, State.setClient] using h w y
  | stopNotified old => exact fun w y => by simpa [State.notifyAll, State.setClient] using h w y
  | searched old new =>
    exact hstay (WorkerPc.searching.not_holdsMutex old) (WorkerPc.searching.not_holdsMutex new)
  | acquires old free =>
    unfold Locked at h
    rw [free] at h
    exact Sole.enter h rfl
  | passes old new =>
    exact hleave (congrArg WorkerPc.holdsMutex old) (WorkerPc.searching.not_holdsMutex new)
  | exits old stopped => exact hstay (congrArg WorkerPc.holdsMutex old) rfl
  | settles old no => exact Sole.keep h (by simp [old, WorkerPc.holdsMutex])
  | blocks old => exact hleave (congrArg WorkerPc.holdsMutex old) rfl
  | takes old front => exact hstay (WorkerPc.searching.not_holdsMutex old) rfl
  | finishes old => exact hstay (congrArg WorkerPc.holdsMutex old) rfl
  | spurious old => exact hstay (congrArg WorkerPc.holdsMutex old) rfl
  | _ => exact h

theorem Locked.not_missed {s : State m n α} (h : Locked s) (htwo : 2 ≤ n) (c : Fin m) :
    ¬ s.Missed c := by
  intro hmissed
  have howner : ∀ w, s.mutex.map (·, ()) = some (w, ()) := by
    intro w
    refine (h w ()).mp ?_
    have hwindow := hmissed.window w
    cases hpc : s.workers w with
    | block k => rfl
    | _ => rw [hpc] at hwindow; exact absurd hwindow (by simp [WorkerPc.inWindow])
  have hsame := (howner ⟨0, by omega⟩).symm.trans (howner ⟨1, by omega⟩)
  exact absurd (congrArg (fun o => o.map (·.1.val)) hsame) (by simp)

/-- With two workers or more, the pool never sleeps over queued work, in any run. -/
theorem not_stuck_of_two_workers (htwo : 2 ≤ n) {as : List (Action m n α)} {s : State m n α}
    (h : Run step free (start m n α) as s) : ¬ s.Stuck := by
  have hpreserved : Preserved step free (fun s : State m n α => Alert s ∧ Locked s) := by
    rintro s a t ⟨halert, hlocked⟩ _ hs
    have hm := Move.of_step hs
    exact ⟨halert.move hm fun c _ _ => hlocked.not_missed htwo c, hlocked.move hm⟩
  obtain ⟨halert, _⟩ := h.invariant hpreserved ⟨alert_start, locked_start⟩
  intro hstuck
  obtain ⟨w, hw⟩ := halert.awake hstuck.running hstuck.unpaused hstuck.work hstuck.nobody
  rw [WorkerPc.asleep_eq_false, hstuck.blocked w] at hw
  exact absurd hw.2 (by simp)

end Pool
end NexusTask
