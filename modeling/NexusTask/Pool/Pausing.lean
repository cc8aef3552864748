import NexusTask.Pool.Submit

/-!
# `pause`

`pause` stores a flag and waits for nobody. What it promises is that a worker that sees the flag
starts no task before `resume`; a worker that has looked before may start one more. `Turns` counts
the tasks each worker takes up and finishes, and remembers whether in its present turn of the loop
it has come past the flag.

The argument is a budget: what a worker may still start before it comes back to the flag
(`WorkerPc.mayTake`, `WorkerPc.mayFinish`). While the flag is set nothing renews it.
-/

set_option autoImplicit false

namespace NexusTask
namespace Pool

open Transition

variable {m n : Nat} {α : Type}

/-! ## What a worker can do -/

/-- The ways from one place in the loop to the next. -/
inductive Next (s : State m n α) : WorkerPc n α → WorkerPc n α → Prop
  | leave (stopped : s.running = false) : Next s .testRunning .exited
  | enter : Next s .testRunning .testPaused
  | pass {rest} (on : s.paused = false) : Next s .testPaused (.scan rest)
  | halt : Next s .testPaused (.lock .resumed)
  | lock {k} : Next s (.lock k) (.test k)
  | release {rest} (on : s.predicate .resumed = true) : Next s (.test .resumed) (.scan rest)
  | retry : Next s (.test .work) .testRunning
  | settle {k} : Next s (.test k) (.block k)
  | block {k} : Next s (.block k) (.blocked k)
  | tire : Next s (.scan []) (.lock .work)
  | skip {r rest} : Next s (.scan (r :: rest)) (.scan rest)
  | take {r rest x} : Next s (.scan (r :: rest)) (.execute x)
  | finish {x} : Next s (.execute x) .testRunning

theorem workerStep_next {s t : State m n α} {w : Fin n} (h : workerStep s w = some t) :
    ∃ pc, Next s (s.workers w) pc ∧ t.workers = Function.update s.workers w pc ∧
      t.running = s.running ∧ t.paused = s.paused := by
  have hset : ∀ {u : State m n α} {pc : WorkerPc n α}, some (u.setWorker w pc) = some t →
      u.workers = s.workers ∧ u.running = s.running ∧ u.paused = s.paused →
      Next s (s.workers w) pc →
      ∃ pc, Next s (s.workers w) pc ∧ t.workers = Function.update s.workers w pc ∧
        t.running = s.running ∧ t.paused = s.paused := by
    intro u pc h ⟨hworkers, hrunning, hpaused⟩ hnext
    obtain rfl := Option.some.inj h
    exact ⟨pc, hnext, by rw [← hworkers]; rfl, hrunning, hpaused⟩
  unfold workerStep at h
  split at h
  next hpc =>
    refine hset h ⟨rfl, rfl, rfl⟩ ?_
    rw [hpc]
    cases hrun : s.running with
    | true => exact .enter
    | false => exact .leave hrun
  next hpc =>
    refine hset h ⟨rfl, rfl, rfl⟩ ?_
    rw [hpc]
    cases hpaused : s.paused with
    | true => exact .halt
    | false => exact .pass hpaused
  next k hpc =>
    split at h
    next => exact hset h ⟨rfl, rfl, rfl⟩ (by rw [hpc]; exact .lock)
    next => exact absurd h (by simp)
  next k hpc =>
    split at h
    next hpred =>
      refine hset h ⟨rfl, rfl, rfl⟩ ?_
      rw [hpc]
      cases k with
      | resumed => exact .release hpred
      | work => exact .retry
    next => exact hset h ⟨rfl, rfl, rfl⟩ (by rw [hpc]; exact .settle)
  next hpc => exact hset h ⟨rfl, rfl, rfl⟩ (by rw [hpc]; exact .block)
  next => exact absurd h (by simp)
  next hpc => exact hset h ⟨rfl, rfl, rfl⟩ (by rw [hpc]; exact .tire)
  next hpc =>
    split at h
    next => exact hset h ⟨rfl, rfl, rfl⟩ (by rw [hpc]; exact .skip)
    next => exact hset h ⟨rfl, rfl, rfl⟩ (by rw [hpc]; exact .take)
  next hpc => exact hset h ⟨rfl, rfl, rfl⟩ (by rw [hpc]; exact .finish)
  next => exact absurd h (by simp)

/-! ## What a client can do -/

/-- What a client outside `shutdown` does to the flags and the workers. -/
structure ClientMove (s t : State m n α) (c : Fin m) : Prop where
  stopping : (t.clients c).stopping = false
  running : t.running = s.running
  paused : t.paused = s.paused ∨ s.clients c = .pauseStore ∧ t.paused = true ∨
    s.clients c = .resumeStore
  workers : ∀ w, t.workers w = s.workers w ∨
    ∃ k, s.workers w = .blocked k ∧ t.workers w = .lock k

theorem clientStep_move {s t : State m n α} {c : Fin m} (hstop : (s.clients c).stopping = false)
    (h : clientStep s c = some t) : ClientMove s t c := by
  have hset : ∀ {u : State m n α} {pc : ClientPc n α}, some (u.setClient c pc) = some t →
      pc.stopping = false → u.running = s.running →
      (u.paused = s.paused ∨ s.clients c = .pauseStore ∧ u.paused = true ∨
        s.clients c = .resumeStore) →
      u.workers = s.workers → ClientMove s t c := by
    intro u pc h hpc hrunning hpaused hworkers
    obtain rfl := Option.some.inj h
    exact ⟨by rw [State.setClient_self]; exact hpc, hrunning, hpaused,
      fun w => .inl (congrFun hworkers w)⟩
  have hplace : ∀ {r : QueueRef n} {x : α} {full : ClientPc n α}, full.stopping = false →
      some (s.place c r x full) = some t → ClientMove s t c := by
    intro r x full hfull h
    unfold State.place at h
    split at h
    next => exact hset h rfl rfl (.inl rfl) rfl
    next => exact hset h hfull rfl (.inl rfl) rfl
  unfold clientStep at h
  split at h
  next => exact absurd h (by simp)
  next => exact hset h (by split <;> rfl) rfl (.inl rfl) rfl
  next =>
    split at h
    next => exact hset h rfl rfl (.inl rfl) rfl
    next => exact absurd h (by simp)
  next => exact hplace rfl h
  next kind _ _ _ => exact hplace (by cases kind <;> rfl) h
  next => exact hplace rfl h
  next => exact hset h (by split <;> rfl) rfl (.inl rfl) rfl
  next x _ _ =>
    split at h
    next =>
      exact hset h rfl (State.accept_running x) (.inl (State.accept_paused x))
        (State.accept_workers x)
    next => exact absurd h (by simp)
  next hpc => exact hset h rfl rfl (.inr (.inl ⟨hpc, rfl⟩)) rfl
  next hpc => exact hset h rfl rfl (.inr (.inr hpc)) rfl
  next =>
    obtain rfl := Option.some.inj h
    refine ⟨by rw [State.setClient_self]; rfl, rfl, .inl rfl, fun w => ?_⟩
    show (s.workers w).woken = s.workers w ∨
      ∃ k, s.workers w = .blocked k ∧ (s.workers w).woken = .lock k
    cases s.workers w with
    | blocked k => exact .inr ⟨k, rfl, rfl⟩
    | _ => exact .inl rfl
  -- The rest is inside `shutdown`.
  next hpc => rw [hpc] at hstop; exact nomatch hstop
  next hpc => rw [hpc] at hstop; exact nomatch hstop
  next hpc => rw [hpc] at hstop; exact nomatch hstop

/-! ## Turns of the loop -/

namespace WorkerPc

def isExecuting : WorkerPc n α → Bool
  | .execute _ => true
  | _ => false

/-- How many tasks the worker may take up before it comes back to `paused_`. -/
def mayTake : WorkerPc n α → Nat
  | .scan _ => 1
  | _ => 0

/-- How many it may finish. -/
def mayFinish : WorkerPc n α → Nat
  | .scan _ | .execute _ => 1
  | _ => 0

theorem mayTake_le (pc : WorkerPc n α) : pc.mayTake ≤ pc.mayFinish := by
  cases pc <;> simp [mayTake, mayFinish]

theorem mayFinish_le_one (pc : WorkerPc n α) : pc.mayFinish ≤ 1 := by
  cases pc <;> simp [mayFinish]

end WorkerPc

/-- The pool, and for each worker whether in its present turn of the loop it has passed the test of
`paused_` or been released from the wait behind it, and how many tasks it has taken up and finished.
-/
structure Turns (m n : Nat) (α : Type) where
  pool : State m n α
  passed : Fin n → Bool
  started : Fin n → Nat
  finished : Fin n → Nat

namespace Turns

def start (m n : Nat) (α : Type) : Turns m n α where
  pool := Pool.start m n α
  passed _ := false
  started _ := 0
  finished _ := 0

/-- Worker `w` has moved, and the pool is `t` now. -/
def turn (o : Turns m n α) (w : Fin n) (t : State m n α) : Turns m n α where
  pool := t
  passed := Function.update o.passed w (match o.pool.workers w with
    | .testRunning => false
    | .testPaused => !o.pool.paused
    | .test .resumed => o.pool.predicate .resumed
    | _ => o.passed w)
  started := Function.update o.started w
    (o.started w + if (t.workers w).isExecuting then 1 else 0)
  finished := Function.update o.finished w
    (o.finished w + if (o.pool.workers w).isExecuting then 1 else 0)

def step (o : Turns m n α) (a : Action m n α) : Option (Turns m n α) :=
  (Pool.step o.pool a).map fun t =>
    match a with
    | .worker w => o.turn w t
    | _ => { o with pool := t }

/-- `resume` stores its flag. -/
def resumes (o : Turns m n α) : Action m n α → Bool
  | .client c => match o.pool.clients c with
    | .resumeStore => true
    | _ => false
  | _ => false

end Turns

def Action.isShutdown : Action m n α → Bool
  | .call _ op => op.isShutdown
  | _ => false

def noShutdown (_ : Turns m n α) (a : Action m n α) : Prop := a.isShutdown = false

instance (o : Turns m n α) (a : Action m n α) : Decidable (noShutdown o a) :=
  inferInstanceAs (Decidable (a.isShutdown = false))

/-- Nobody shuts the pool down, and nobody resumes it. -/
def noResume (o : Turns m n α) (a : Action m n α) : Prop :=
  a.isShutdown = false ∧ o.resumes a = false

instance (o : Turns m n α) (a : Action m n α) : Decidable (noResume o a) :=
  inferInstanceAs (Decidable (a.isShutdown = false ∧ o.resumes a = false))

/-- Nobody has called `shutdown`. -/
structure Unstopped (s : State m n α) : Prop where
  running : s.running = true
  stopping : ∀ c, (s.clients c).stopping = false

/-- What any step of a pool that is not shut down does. -/
structure StepMove (s t : State m n α) (a : Action m n α) : Prop where
  unstopped : Unstopped t
  paused : t.paused = s.paused ∨ ∃ c, a = .client c ∧
    (s.clients c = .pauseStore ∧ t.paused = true ∨ s.clients c = .resumeStore)
  others : ∀ w, a ≠ .worker w → t.workers w = s.workers w ∨
    ∃ k, s.workers w = .blocked k ∧ t.workers w = .lock k
  own : ∀ w, a = .worker w → Next s (s.workers w) (t.workers w)

/-- A worker that has been woken up goes for the lock. -/
theorem freed {s t : State m n α} {w : Fin n} {k : Wait} (hblocked : s.workers w = .blocked k)
    (hworkers : t.workers = Function.update s.workers w (.lock k)) (v : Fin n) :
    t.workers v = s.workers v ∨ ∃ k, s.workers v = .blocked k ∧ t.workers v = .lock k := by
  rw [hworkers]
  by_cases hv : v = w
  · subst hv
    exact .inr ⟨k, hblocked, Function.update_self ..⟩
  · exact .inl (Function.update_of_ne hv ..)

theorem step_move {s t : State m n α} {a : Action m n α} (hs : Unstopped s)
    (ha : a.isShutdown = false) (h : Pool.step s a = some t) : StepMove s t a := by
  -- A step of client `c`: all others stay outside `shutdown`.
  have hclients : ∀ c, a.client? = some c → (t.clients c).stopping = false →
      ∀ d, (t.clients d).stopping = false := by
    intro c hown hc d
    by_cases hd : d = c
    · rw [hd]
      exact hc
    · have hother : a.client? ≠ some d := by
        rw [hown]
        exact fun he => hd (Option.some.inj he).symm
      rw [client_stays hother h]
      exact hs.stopping d
  cases a with
  | call c op =>
    have hstays := hclients c rfl
    simp only [Pool.step] at h
    split at h
    next =>
      obtain rfl := Option.some.inj h
      refine ⟨⟨hs.running, hstays ?_⟩, .inl rfl, fun _ _ => .inl rfl,
        fun _ he => absurd he (by simp)⟩
      rw [State.setClient_self]
      cases op with
      | shutdown => exact absurd ha (by simp [Action.isShutdown, Call.isShutdown])
      | _ => rfl
    next => exact absurd h (by simp)
  | client c =>
    have hmove := clientStep_move (hs.stopping c) h
    refine ⟨⟨hmove.running.trans hs.running, ?_⟩, ?_, fun w _ => hmove.workers w,
      fun _ he => absurd he (by simp)⟩
    · exact hclients c rfl hmove.stopping
    · exact hmove.paused.imp_right fun hat => ⟨c, rfl, hat⟩
  | wake c w =>
    have hstays := hclients c rfl
    simp only [Pool.step] at h
    split at h
    next x placed k _ hblocked =>
      obtain rfl := Option.some.inj h
      have hworkers : (((s.accept x).setWorker w (.lock k)).setClient c .idle).workers
          = Function.update s.workers w (.lock k) := by
        simp [State.setClient, State.setWorker]
      refine ⟨⟨(State.accept_running x).trans hs.running, hstays ?_⟩,
        .inl (State.accept_paused x), fun v _ => freed hblocked hworkers v,
        fun _ he => absurd he (by simp)⟩
      rw [State.setClient_self]
      rfl
    next => exact absurd h (by simp)
  | timeOut c =>
    have hstays := hclients c rfl
    simp only [Pool.step] at h
    split at h
    next =>
      obtain rfl := Option.some.inj h
      refine ⟨⟨hs.running, hstays ?_⟩, .inl rfl, fun _ _ => .inl rfl,
        fun _ he => absurd he (by simp)⟩
      rw [State.setClient_self]
      rfl
    next => exact absurd h (by simp)
  | worker w =>
    obtain ⟨pc, hnext, hworkers, hrunning, hpaused⟩ := workerStep_next h
    have hsame := workerStep_clients h
    refine ⟨⟨hrunning.trans hs.running, fun c => hsame ▸ hs.stopping c⟩, .inl hpaused,
      fun v hv => .inl ?_, fun v hv => ?_⟩
    · rw [hworkers]
      exact Function.update_of_ne (fun he => hv (by rw [he])) ..
    · obtain rfl := Action.worker.inj hv
      rw [hworkers, Function.update_self]
      exact hnext
  | spurious w =>
    simp only [Pool.step] at h
    split at h
    next k hblocked =>
      obtain rfl := Option.some.inj h
      exact ⟨⟨hs.running, hs.stopping⟩, .inl rfl, fun v _ => freed hblocked rfl v,
        fun _ he => absurd he (by simp)⟩
    next => exact absurd h (by simp)

/-! ## Before the pause -/

/-- A worker that may take up or finish a task has come past the flag. -/
structure Looping (o : Turns m n α) : Prop where
  unstopped : Unstopped o.pool
  passed : ∀ w, 0 < (o.pool.workers w).mayFinish → o.passed w = true

theorem looping_start : Looping (.start m n α) where
  unstopped := ⟨rfl, fun _ => rfl⟩
  passed _ h := absurd h (Nat.lt_irrefl 0)

theorem looping_step : Preserved (Turns.step (m := m) (n := n) (α := α)) noShutdown Looping := by
  intro o a o' h hok hstep
  obtain ⟨t, ht, rfl⟩ := Option.map_eq_some_iff.mp hstep
  have hmove := step_move h.unstopped hok ht
  -- A worker that does not move itself goes nowhere, or from blocking to the mutex.
  have hothers : ∀ v, a ≠ .worker v → 0 < (t.workers v).mayFinish → o.passed v = true := by
    intro v hv hpos
    rcases hmove.others v hv with hsame | ⟨k, _, hlock⟩
    · exact h.passed v (hsame ▸ hpos)
    · rw [hlock] at hpos
      exact absurd hpos (Nat.lt_irrefl 0)
  cases a with
  | worker w =>
    refine ⟨hmove.unstopped, fun v hpos => ?_⟩
    show Function.update o.passed w _ v = true
    by_cases hv : v = w
    · subst hv
      rw [Function.update_self]
      have hnext := hmove.own v rfl
      have hold := h.passed v
      have hpos' : 0 < (t.workers v).mayFinish := hpos
      revert hnext hold hpos'
      generalize o.pool.workers v = old
      generalize t.workers v = new
      intro hnext hold hpos'
      cases hnext with
      | pass on => simp [on]
      | release on => exact on
      | skip => exact hold Nat.one_pos
      | take => exact hold Nat.one_pos
      | _ => exact absurd hpos' (Nat.lt_irrefl 0)
    · rw [Function.update_of_ne hv]
      exact hothers v (fun he => hv (Action.worker.inj he).symm) hpos
  | _ => exact ⟨hmove.unstopped, fun v hpos => hothers v (by simp) hpos⟩

/-! ## After it -/

/-- While the flag is set and the pool runs, a turn of the loop uses up the budget. -/
theorem Next.spends {s : State m n α} {old new : WorkerPc n α} (h : Next s old new)
    (hrun : s.running = true) (hpaused : s.paused = true) :
    (if new.isExecuting then 1 else 0) + new.mayTake ≤ old.mayTake ∧
    (if old.isExecuting then 1 else 0) + new.mayFinish ≤ old.mayFinish := by
  cases h with
  | pass on => exact absurd (hpaused.symm.trans on) (by simp)
  | release on => simp [State.predicate, hrun, hpaused] at on
  | _ => simp [WorkerPc.isExecuting, WorkerPc.mayTake, WorkerPc.mayFinish]

/-- Since `o₁` nobody has got a new budget. -/
structure Spending (o₁ o : Turns m n α) : Prop where
  unstopped : Unstopped o.pool
  paused : o.pool.paused = true
  started : ∀ w, o.started w + (o.pool.workers w).mayTake
    ≤ o₁.started w + (o₁.pool.workers w).mayTake
  finished : ∀ w, o.finished w + (o.pool.workers w).mayFinish
    ≤ o₁.finished w + (o₁.pool.workers w).mayFinish

theorem spending_step (o₁ : Turns m n α) : Preserved Turns.step noResume (Spending o₁) := by
  intro o a o' h hok hstep
  obtain ⟨t, ht, rfl⟩ := Option.map_eq_some_iff.mp hstep
  have hmove := step_move h.unstopped hok.1 ht
  have hpaused : t.paused = true := by
    rcases hmove.paused with hsame | ⟨c, rfl, ⟨_, hset⟩ | hat⟩
    · exact hsame.trans h.paused
    · exact hset
    · exact absurd hok.2 (by simp [Turns.resumes, hat])
  have hothers : ∀ v, a ≠ .worker v →
      (t.workers v).mayTake ≤ (o.pool.workers v).mayTake ∧
      (t.workers v).mayFinish ≤ (o.pool.workers v).mayFinish := by
    intro v hv
    rcases hmove.others v hv with hsame | ⟨k, _, hlock⟩
    · rw [hsame]
      exact ⟨Nat.le_refl _, Nat.le_refl _⟩
    · rw [hlock]
      exact ⟨Nat.zero_le _, Nat.zero_le _⟩
  cases a with
  | worker w =>
    refine ⟨hmove.unstopped, hpaused, fun v => ?_, fun v => ?_⟩
    · show Function.update o.started w _ v + (t.workers v).mayTake ≤ _
      have hold := h.started v
      by_cases hv : v = w
      · subst hv
        have hspends := ((hmove.own v rfl).spends h.unstopped.running h.paused).1
        rw [Function.update_self]
        omega
      · have hkeeps := (hothers v fun he => hv (Action.worker.inj he).symm).1
        rw [Function.update_of_ne hv]
        omega
    · show Function.update o.finished w _ v + (t.workers v).mayFinish ≤ _
      have hold := h.finished v
      by_cases hv : v = w
      · subst hv
        have hspends := ((hmove.own v rfl).spends h.unstopped.running h.paused).2
        rw [Function.update_self]
        omega
      · have hkeeps := (hothers v fun he => hv (Action.worker.inj he).symm).2
        rw [Function.update_of_ne hv]
        omega
  | _ =>
    refine ⟨hmove.unstopped, hpaused, fun v => ?_, fun v => ?_⟩
    · exact Nat.le_trans (Nat.add_le_add_left (hothers v (by simp)).1 _) (h.started v)
    · exact Nat.le_trans (Nat.add_le_add_left (hothers v (by simp)).2 _) (h.finished v)

/-- **After `pause` a worker starts at most one task more**, and finishes at most one, until
somebody calls `resume`; and if it does, then in that turn of its loop it had come past the flag
before the flag was set. -/
theorem pause_holds {as bs : List (Action m n α)} {o o₁ o₂ : Turns m n α} {c : Fin m}
    (before : Run Turns.step noShutdown (.start m n α) as o)
    (pausing : o.pool.clients c = .pauseStore) (pause : o.step (.client c) = some o₁)
    (after : Run Turns.step noResume o₁ bs o₂) (w : Fin n) :
    o₂.started w ≤ o₁.started w + 1 ∧ o₂.finished w ≤ o₁.finished w + 1 ∧
    (o₁.started w < o₂.started w ∨ o₁.finished w < o₂.finished w → o.passed w = true) := by
  have hloop : Looping o := before.invariant looping_step looping_start
  have hpool : o₁.pool.workers = o.pool.workers ∧ o₁.pool.paused = true ∧
      Unstopped o₁.pool := by
    obtain ⟨t, ht, rfl⟩ := Option.map_eq_some_iff.mp pause
    have hmove := step_move hloop.unstopped rfl ht
    simp only [Pool.step, clientStep, pausing] at ht
    obtain rfl := Option.some.inj ht
    exact ⟨rfl, rfl, hmove.unstopped⟩
  obtain ⟨hworkers, hpaused, hunstopped⟩ := hpool
  have hspending : Spending o₁ o₂ := after.invariant (spending_step o₁)
    ⟨hunstopped, hpaused, fun _ => Nat.le_refl _, fun _ => Nat.le_refl _⟩
  have hstarted := hspending.started w
  have hfinished := hspending.finished w
  have htake := (o₁.pool.workers w).mayTake_le
  have hone := (o₁.pool.workers w).mayFinish_le_one
  refine ⟨by omega, by omega, fun hmore => hloop.passed w ?_⟩
  rw [← congrFun hworkers w]
  omega

/-- The worker is looking for work when the pool is paused, and starts one of two tasks. -/
theorem pause_holds_one :
    ∃ o o₁ o₂, Run Turns.step noShutdown (.start 2 1 Nat)
        (.worker 0 :: .worker 0 :: .call 0 (.submit 7 .normal) :: List.replicate 4 (.client 0) ++
          .call 0 (.submit 8 .normal) :: List.replicate 4 (.client 0) ++ [.call 1 .pause]) o ∧
      o.step (.client 1) = some o₁ ∧ Run Turns.step noResume o₁ (List.replicate 8 (.worker 0)) o₂ ∧
      o₂.started 0 = 1 ∧ o₂.started 0 ≤ o₁.started 0 + 1 := by
  have hbefore : Run Turns.step noShutdown (.start 2 1 Nat)
      (.worker 0 :: .worker 0 :: .call 0 (.submit 7 .normal) :: List.replicate 4 (.client 0) ++
        .call 0 (.submit 8 .normal) :: List.replicate 4 (.client 0) ++ [.call 1 .pause]) _ :=
    Run.of_isSome (by decide +kernel)
  refine ⟨_, _, _, hbefore, rfl, Run.of_isSome (by decide +kernel), by decide +kernel, ?_⟩
  exact (pause_holds (c := 1) hbefore rfl rfl (Run.of_isSome (by decide +kernel)) 0).1

end Pool
end NexusTask
