import NexusTask.Executor.Stopping
import NexusTask.TaskScheduler.Waiting

/-!
# A scheduler and its executor

The loop submits a task to an executor, and somebody may stop the executor: then `submit` throws,
and nothing catches the exception in `scheduler_loop`. A `Program` is a scheduler and an executor
side by side. The scheduler's thread is a client of the executor; it is at `executor_.submit` as
long as that client is in its call, and goes on by `submitReturns` or `submitThrows` when the call
is over.

A task is off the heap when it is submitted. One that the pool does not take is gone, unless it is
periodic and `submit` returns all the same. `Accepted` excludes the submissions of the loop that a
stopped pool does not take.
-/

set_option autoImplicit false

namespace NexusTask
namespace TaskScheduler

open Transition
open Executor (System Caller)

variable {m p n k : Nat} {φ : Type}

/-- The end of the call of `executor_.submit`. -/
def Action.endsSubmit : Action m φ → Bool
  | .submitReturns | .submitThrows => true
  | _ => false

theorem LoopPc.notified_eq_submitting_iff {pc : LoopPc φ} {task : ScheduledTask φ} {now : Int} :
    pc.notified = .submitting task now ↔ pc = .submitting task now := by
  cases pc <;> simp [notified]

theorem LoopPc.notified_eq_threw_iff {pc : LoopPc φ} : pc.notified = .threw ↔ pc = .threw := by
  cases pc <;> simp [notified]

section Steps

variable {s t : State m φ} {task : ScheduledTask φ} {now : Int}

/-- What a step other than the end of a submission does to the place of the loop: nothing, or a
notification, or the loop goes on, which it does not at a submission. -/
inductive LoopMove (s t : State m φ) : Prop
  | stays (loop : t.loop = s.loop)
  | notified (loop : t.loop = s.loop.notified)
  | goes (old : ∀ task now, s.loop ≠ .submitting task now) (new : t.loop ≠ .threw)

theorem loopStep_loop (h : s.loopStep = some t) : LoopMove s t := by
  unfold State.loopStep at h
  cases hloop : s.loop with
  | testRunning | testEmpty | testWait | testTimedWait _ =>
    rw [hloop] at h
    refine Option.some.inj h ▸ .goes (fun _ _ => by simp [hloop]) ?_
    dsimp only
    split <;> simp
  | lock | block | woken | relock _ _ | timedBlock _ | timedWoken _ =>
    rw [hloop] at h
    exact Option.some.inj h ▸ .goes (fun _ _ => by simp [hloop]) (by simp)
  | absent | waiting | readClock | submitting _ _ | timedWaiting _ | left | threw =>
    rw [hloop] at h
    exact absurd h (by simp)

variable [DecidableEq φ] {a : Action m φ}

theorem step_loop (h : step s a = some t) (ha : a.endsSubmit = false) : LoopMove s t := by
  cases (step_taken h).2 with
  | schedules | notifies | wakes => exact .notified rfl
  | cancels | starts | startsNot | stops | stopsNot | leaves | spawnsTwice | joinsNot | ticks =>
    exact .stays rfl
  | spawns c spawning absent =>
    exact .goes (fun _ _ => by simp [absent]) (by simp [State.setClient])
  | joins c joining left => exact .goes (fun _ _ => by simp [left]) (by simp [State.setClient])
  | loops next => exact loopStep_loop next
  | reads now top task loop get after least =>
    refine .goes (fun _ _ => by simp [loop]) ?_
    unfold State.look
    split <;> simp
  | submitReturns | submitThrows => exact absurd ha (by simp [Action.endsSubmit])
  | timesOut deadline loop past => exact .goes (fun _ _ => by simp [loop]) (by simp)

/-- A submission goes on until its call ends. -/
theorem step_submitting (h : step s a = some t) (ha : a.endsSubmit = false)
    (hloop : s.loop = .submitting task now) : t.loop = .submitting task now := by
  cases step_loop h ha with
  | stays loop => exact loop.trans hloop
  | notified loop => exact loop.trans (LoopPc.notified_eq_submitting_iff.mpr hloop)
  | goes old new => exact absurd hloop (old task now)

/-- Only a submission lets an exception out of the loop. -/
theorem step_threw (h : step s a = some t) (ha : a.endsSubmit = false) (hloop : t.loop = .threw) :
    s.loop = .threw := by
  cases step_loop h ha with
  | stays loop => exact loop.symm.trans hloop
  | notified loop => exact LoopPc.notified_eq_threw_iff.mp (loop.symm.trans hloop)
  | goes old new => exact absurd hloop new

theorem step_submitReturns (h : step s .submitReturns = some t) :
    ∃ task now, s.loop = .submitting task now ∧ t.tasks = s.tasks ∧
      t.loop = if task.Periodic then .relock task now else .testRunning := by
  cases (step_taken h).2 with
  | schedules c task clock free due => exact absurd due (by simp [Action.due])
  | submitReturns task now loop => exact ⟨task, now, loop, rfl, rfl⟩

theorem step_submitThrows (h : step s .submitThrows = some t) :
    t.loop = .threw ∧ t.terminated = true := by
  cases (step_taken h).2 with
  | schedules c task clock free due => exact absurd due (by simp [Action.due])
  | submitThrows task now loop => exact ⟨rfl, rfl⟩

end Steps

/-- A scheduler with `m` clients, and the executor it submits to, which has `p` more. -/
structure Program (m p n k : Nat) (φ : Type) where
  sched : State m φ
  exec : System (p + 1) n k
  /-- History: the due tasks the executor refused of which no instance is left in the schedule. -/
  lost : List (ScheduledTask φ)

namespace Program

/-- The scheduler's thread, among the clients of the executor. -/
def loopThread : Fin (p + 1) := 0

inductive Event (m p n k : Nat) (φ : Type)
  /-- A step of the scheduler's threads. -/
  | sched (a : Action m φ)
  /-- The loop calls `executor_.submit`. -/
  | submit
  | exec (e : Executor.Event (p + 1) n k)

/-- How the call ends. -/
inductive Ending
  | returns
  | throws
  /-- `ThreadPool::submit` returns without having enqueued the task. -/
  | givesUp
  deriving DecidableEq

/-- The event that leads the executor from `S` to `T` ends the loop's call. -/
def ending (S T : System (p + 1) n k) : Executor.Event (p + 1) n k → Option Ending
  | .testRunning (.client c) =>
      if c = loopThread ∧ S.running = false then some .throws else none
  | .giveUp (.client c) => if c = loopThread then some .givesUp else none
  | .act _ =>
      if S.exec.clients loopThread ≠ .idle ∧ T.exec.clients loopThread = .idle then some .returns
      else none
  | _ => none

/-- A call that the scheduler's thread does not make of itself. -/
def isForeign : Executor.Event (p + 1) n k → Bool
  | .act (.call c _) => c == loopThread
  | _ => false

/-- The task in the loop's hand in `s`, if no instance of it is left in `t`. -/
def dropped (s t : State m φ) : List (ScheduledTask φ) :=
  (s.loop.held.toList.map Held.task).filter fun task =>
    task.id ∉ t.instances.map ScheduledTask.id

variable [DecidableEq φ]

/-- The loop goes on after the call. -/
def resumes (P : Program m p n k φ) : Ending → Option (State m φ)
  | .returns | .givesUp => TaskScheduler.step P.sched .submitReturns
  | .throws => TaskScheduler.step P.sched .submitThrows

def step (P : Program m p n k φ) (e : Event m p n k φ) : Option (Program m p n k φ) :=
  if P.sched.terminated then none
  else match e with
  | .sched a =>
      if a.endsSubmit then none
      else (TaskScheduler.step P.sched a).map fun sched => { P with sched }
  | .submit =>
      match P.sched.loop with
      | .submitting task _ =>
          (P.exec.step (.act (.call loopThread (.submit task.options)))).map fun exec =>
            { P with exec }
      | _ => none
  | .exec e =>
      if isForeign e then none
      else (P.exec.step e).bind fun exec =>
        match ending P.exec exec e with
        | none => some { P with exec }
        | some ending => (P.resumes ending).map fun sched => {
            sched, exec,
            lost := if ending = .returns then P.lost else P.lost ++ dropped P.sched sched }

omit [DecidableEq φ] in
/-- A scheduler just constructed, on an executor just started. -/
def new (m p n k : Nat) (φ : Type) (now : Int) : Program m p n k φ where
  sched := TaskScheduler.new m φ now
  exec := System.start (p + 1) n k
  lost := []

/-- No exception has left `scheduler_loop`, and every due task that was refused is still in the
schedule. -/
def Sound (P : Program m p n k φ) : Prop := P.sched.loop ≠ .threw ∧ P.lost = []

/-- The condition on an event: a submission of the loop finds the pool running, and only with a
periodic task does it give up on a full queue of a pool that was stopped meanwhile. -/
def Accepted (P : Program m p n k φ) : Event m p n k φ → Prop
  | .exec (.testRunning (.client c)) => c = loopThread → P.exec.running = true
  | .exec (.giveUp (.client c)) =>
      c = loopThread → ∀ h ∈ P.sched.loop.held, h.task.Periodic
  | _ => True

omit [DecidableEq φ] in
instance (P : Program m p n k φ) : (e : Event m p n k φ) → Decidable (P.Accepted e)
  | .exec (.testRunning (.client c)) =>
    inferInstanceAs (Decidable (c = loopThread → P.exec.running = true))
  | .exec (.giveUp (.client c)) =>
    inferInstanceAs (Decidable (c = loopThread → ∀ h ∈ P.sched.loop.held, h.task.Periodic))
  | .sched _ | .submit | .exec (.act _) | .exec (.testRunning .scheduler)
  | .exec (.testRunning (.worker _)) | .exec (.giveUp .scheduler) | .exec (.giveUp (.worker _))
  | .exec (.workerLoop _) | .exec (.noTask _) | .exec .schedulerLoop | .exec (.callStop _)
  | .exec (.stop _) => .isTrue trivial

/-! ## What an event does -/

/-- The two parts move one at a time, except where a call ends. -/
inductive Joint (P Q : Program m p n k φ) : Event m p n k φ → Prop
  | sched {a} (inner : a.endsSubmit = false) (next : TaskScheduler.step P.sched a = some Q.sched)
      (exec : Q.exec = P.exec) (lost : Q.lost = P.lost) : Joint P Q (.sched a)
  | submit (task : ScheduledTask φ) (now : Int) (loop : P.sched.loop = .submitting task now)
      (sched : Q.sched = P.sched)
      (next : P.exec.step (.act (.call loopThread (.submit task.options))) = some Q.exec)
      (lost : Q.lost = P.lost) : Joint P Q .submit
  | goes {e} (foreign : isForeign e = false) (next : P.exec.step e = some Q.exec)
      (goesOn : ending P.exec Q.exec e = none) (sched : Q.sched = P.sched)
      (lost : Q.lost = P.lost) : Joint P Q (.exec e)
  | ends {e} (how : Ending) (next : P.exec.step e = some Q.exec)
      (ends : ending P.exec Q.exec e = some how) (sched : P.resumes how = some Q.sched)
      (lost : Q.lost = if how = .returns then P.lost else P.lost ++ dropped P.sched Q.sched) :
      Joint P Q (.exec e)

variable {P Q : Program m p n k φ} {e : Event m p n k φ}

theorem step_joint (h : P.step e = some Q) : P.sched.terminated = false ∧ Joint P Q e := by
  unfold step at h
  split at h
  next => exact absurd h (by simp)
  next hlive =>
    refine ⟨Bool.eq_false_iff.mpr hlive, ?_⟩
    cases e with
    | sched a =>
      dsimp only at h
      split at h
      next => exact absurd h (by simp)
      next hinner =>
        obtain ⟨sched, hsched, rfl⟩ := Option.map_eq_some_iff.mp h
        exact .sched (Bool.eq_false_iff.mpr hinner) hsched rfl rfl
    | submit =>
      dsimp only at h
      split at h
      next task now hloop =>
        obtain ⟨exec, hexec, rfl⟩ := Option.map_eq_some_iff.mp h
        exact .submit task now hloop rfl hexec rfl
      next => exact absurd h (by simp)
    | exec e =>
      dsimp only at h
      split at h
      next => exact absurd h (by simp)
      next hforeign =>
        obtain ⟨exec, hexec, hnext⟩ := Option.bind_eq_some_iff.mp h
        split at hnext
        next hgoes =>
          obtain rfl := Option.some.inj hnext
          exact .goes (Bool.eq_false_iff.mpr hforeign) hexec hgoes rfl rfl
        next how hends =>
          obtain ⟨sched, hsched, rfl⟩ := Option.map_eq_some_iff.mp hnext
          exact .ends how hexec hends hsched rfl

/-! ## The call -/

/-- The clients of the executor move by their own steps, or by an exception or a return of
`submit`. -/
inductive ClientsStep (S : System (p + 1) n k) (f : Executor.Event (p + 1) n k)
    (T : System (p + 1) n k) : Prop
  | same (act : ∀ a, f ≠ .act a) (clients : T.exec.clients = S.exec.clients)
      (goesOn : ending S T f = none)
  | act {a} (act : f = .act a) (step : Executor.step S.exec a = some T.exec)
  | leaves {c u} (act : ∀ a, f ≠ .act a) (old : S.exec.clients c = .enqueue u)
      (clients : T.exec.clients = Function.update S.exec.clients c .idle)
      (ends : (ending S T f).isSome ↔ c = loopThread)

section Call

variable {S T : System (p + 1) n k} {f : Executor.Event (p + 1) n k}

omit [DecidableEq φ]

theorem clientsStep (h : S.step f = some T) : ClientsStep S f T := by
  cases System.execMove h with
  | act enabled step => exact .act rfl step
  | @admits q running exec =>
    refine .same (by simp) (exec ▸ rfl) ?_
    cases q <;> simp [ending, running]
  | @clientThrows c u stopped old exec =>
    refine .leaves (by simp) old (exec ▸ rfl) ?_
    by_cases hc : c = loopThread <;> simp [ending, stopped, hc]
  | @clientGivesUp c u old exec =>
    refine .leaves (by simp) old (exec ▸ rfl) ?_
    by_cases hc : c = loopThread <;> simp [ending, hc]
  | schedulerThrows _ exec | workerThrows _ _ exec | schedulerGivesUp _ exec
  | workerGivesUp _ exec => exact .same (by simp) (exec ▸ rfl) rfl
  | aside act tests gives exec =>
    refine .same act (exec ▸ rfl) ?_
    cases f with
    | act a => exact absurd rfl (act a)
    | testRunning q => exact absurd rfl (tests q)
    | giveUp q => exact absurd rfl (gives q)
    | _ => rfl

/-- A call ends by exactly the events `ending` names. -/
theorem ending_isSome_iff (h : S.step f = some T) : (ending S T f).isSome ↔
    S.exec.clients loopThread ≠ .idle ∧ T.exec.clients loopThread = .idle := by
  cases clientsStep h with
  | same act clients goesOn => simp [goesOn, clients]
  | act act step =>
    subst act
    by_cases hend : S.exec.clients loopThread ≠ .idle ∧ T.exec.clients loopThread = .idle
    · simp [ending, hend]
    · simp only [ending, hend, if_false]
      simp
  | @leaves c u act old clients ends =>
    rw [ends, clients]
    by_cases hc : c = loopThread
    · subst hc
      simp [old]
    · rw [Function.update_of_ne (Ne.symm hc)]
      exact iff_of_false hc fun h => h.1 h.2

/-- The scheduler's thread makes no call but those of the loop. -/
theorem idle_of_step (h : S.step f = some T) (hforeign : isForeign f = false)
    (hidle : S.exec.clients loopThread = .idle) : T.exec.clients loopThread = .idle := by
  cases clientsStep h with
  | same act clients goesOn => rw [clients, hidle]
  | @act a act step =>
    subst act
    rcases (Executor.Move.of_step step).clientMove loopThread with hsame | hmove
    · exact hsame.trans hidle
    · rw [hidle] at hmove
      generalize hpc : T.exec.clients loopThread = pc at hmove
      cases hmove with
      | call c act =>
        subst act
        have hc : c ≠ loopThread := by simpa [isForeign] using hforeign
        simp only [Executor.step] at step
        split at step
        next =>
          rw [← hpc, ← Option.some.inj step]
          exact (Function.update_of_ne hc.symm _ _).trans hidle
        next => exact absurd step (by simp)
      | quiet hquiet => cases hquiet
  | @leaves c u act old clients ends =>
    rw [clients]
    by_cases hc : loopThread = c
    · rw [hc, Function.update_self]
    · rw [Function.update_of_ne hc, hidle]

end Call

/-! ## The parts -/

theorem resumes_step {how : Ending} {t : State m φ} (h : P.resumes how = some t) :
    ∃ a, TaskScheduler.step P.sched a = some t := by
  cases how with
  | returns | givesUp => exact ⟨.submitReturns, h⟩
  | throws => exact ⟨.submitThrows, h⟩

/-- **The parts of a run.** The scheduler and the executor of a run have taken runs of their own. -/
theorem runs_parts {start : Int} {es : List (Event m p n k φ)}
    (run : Run step free (new m p n k φ start) es P) :
    (∃ as, Run TaskScheduler.step free (TaskScheduler.new m φ start) as P.sched) ∧
      ∃ fs, Run System.step free (System.start (p + 1) n k) fs P.exec := by
  induction run with
  | nil => exact ⟨⟨[], .nil⟩, [], .nil⟩
  | snoc run _ hstep ih =>
    obtain ⟨⟨as, hsched⟩, fs, hexec⟩ := ih
    cases (step_joint hstep).2 with
    | sched inner next exec lost => exact ⟨⟨_, .snoc hsched trivial next⟩, fs, exec ▸ hexec⟩
    | submit task now loop sched next lost =>
      exact ⟨⟨as, sched ▸ hsched⟩, _, .snoc hexec trivial next⟩
    | goes foreign next goesOn sched lost =>
      exact ⟨⟨as, sched ▸ hsched⟩, _, .snoc hexec trivial next⟩
    | ends how next ends sched lost =>
      obtain ⟨a, ha⟩ := resumes_step sched
      exact ⟨⟨_, .snoc hsched trivial ha⟩, _, .snoc hexec trivial next⟩

/-- While its client is in a call, the loop is at the submission. -/
def Calling (P : Program m p n k φ) : Prop :=
  P.exec.exec.clients loopThread ≠ .idle → ∃ task now, P.sched.loop = .submitting task now

theorem calling_step : Preserved step free fun P : Program m p n k φ => Calling P := by
  intro P e Q hP _ hstep hbusy
  cases (step_joint hstep).2 with
  | sched inner next exec lost =>
    obtain ⟨task, now, hloop⟩ := hP (exec ▸ hbusy)
    exact ⟨task, now, step_submitting next inner hloop⟩
  | submit task now loop sched next lost => exact ⟨task, now, sched ▸ loop⟩
  | goes foreign next goesOn sched lost =>
    exact sched ▸ hP fun hidle => hbusy (idle_of_step next foreign hidle)
  | ends how next ends sched lost =>
    exact absurd ((ending_isSome_iff next).mp (ends ▸ rfl)).2 hbusy

/-- **The executor is not held up.** As long as the program goes on, every event of the executor
that is not a call of the scheduler's thread can happen in it. -/
theorem exists_step_exec {start : Int} {es : List (Event m p n k φ)}
    (run : Run step free (new m p n k φ start) es P) (hlive : P.sched.terminated = false)
    {f : Executor.Event (p + 1) n k} {T : System (p + 1) n k} (hforeign : isForeign f = false)
    (hf : P.exec.step f = some T) : ∃ Q, P.step (.exec f) = some Q ∧ Q.exec = T := by
  have hcalling : Calling P := run.invariant calling_step fun h => absurd rfl h
  cases hends : ending P.exec T f with
  | none => exact ⟨{ P with exec := T }, by simp [step, hlive, hforeign, hf, hends], rfl⟩
  | some how =>
    obtain ⟨task, now, hloop⟩ := hcalling ((ending_isSome_iff hf).mp (hends ▸ rfl)).1
    have hresumes : ∃ t, P.resumes how = some t := by
      cases how <;> simp [resumes, TaskScheduler.step, hlive, hloop]
    obtain ⟨t, ht⟩ := hresumes
    refine ⟨{
      sched := t, exec := T,
      lost := if how = .returns then P.lost else P.lost ++ dropped P.sched t }, ?_, rfl⟩
    simp [step, hlive, hforeign, hf, hends, ht]

/-! ## Refusals -/

/-- No two instances have one id, and after an exception the program is over. -/
structure Kept (P : Program m p n k φ) : Prop where
  distinct : Distinct P.sched
  threw : P.sched.loop = .threw → P.sched.terminated = true

omit [DecidableEq φ] in
theorem kept_new (now : Int) : Kept (new m p n k φ now) :=
  ⟨distinct_new now, fun h => absurd h (by simp [new, TaskScheduler.new])⟩

/-- The loop goes on with its own lines, or is left by the exception. -/
theorem resumes_loop {how : Ending} {t : State m φ} (h : P.resumes how = some t) :
    (t.loop = .threw ↔ how = .throws) ∧ (t.loop = .threw → t.terminated = true) := by
  cases how with
  | returns | givesUp =>
    obtain ⟨task, now, _, _, hloop⟩ := step_submitReturns h
    have hne : t.loop ≠ .threw := by
      rw [hloop]
      split <;> simp
    exact ⟨iff_of_false hne (by simp), fun hthrew => absurd hthrew hne⟩
  | throws =>
    obtain ⟨hloop, hterminated⟩ := step_submitThrows h
    exact ⟨iff_of_true hloop rfl, fun _ => hterminated⟩

theorem kept_step : Preserved step free fun P : Program m p n k φ => Kept P := by
  intro P e Q hP _ hstep
  obtain ⟨hlive, hjoint⟩ := step_joint hstep
  cases hjoint with
  | sched inner next exec lost =>
    refine ⟨hP.distinct.change (step_change next), fun hthrew => ?_⟩
    exact absurd (hP.threw (step_threw next inner hthrew)) (by simp [hlive])
  | submit task now loop sched next lost => exact ⟨sched ▸ hP.distinct, sched ▸ hP.threw⟩
  | goes foreign next goesOn sched lost => exact ⟨sched ▸ hP.distinct, sched ▸ hP.threw⟩
  | ends how next ends sched lost =>
    obtain ⟨a, ha⟩ := resumes_step sched
    exact ⟨hP.distinct.change (step_change ha), (resumes_loop sched).2⟩

/-- The task of a submission that returns is still in the schedule exactly if it is periodic. -/
theorem dropped_eq_nil_iff {s t : State m φ} (hs : Distinct s)
    (h : TaskScheduler.step s .submitReturns = some t) :
    dropped s t = [] ↔ ∀ h ∈ s.loop.held, h.task.Periodic := by
  obtain ⟨task, now, hloop, htasks, hnext⟩ := step_submitReturns h
  have hheld : s.loop.held = some { task, now, submitted := false } := hloop ▸ rfl
  have hdropped : dropped s t = [] ↔ ∃ inst ∈ t.instances, inst.id = task.id := by
    simp [dropped, hheld]
  have hperiodic : (∀ h ∈ s.loop.held, h.task.Periodic) ↔ task.Periodic := by simp [hheld]
  rw [hdropped, hperiodic]
  constructor
  · rintro ⟨inst, hinst, hid⟩
    by_contra honce
    rw [if_neg honce] at hnext
    rcases State.mem_instances.mp hinst with hinst | ⟨h, hh, _⟩
    · exact hs.held_ne hheld (htasks ▸ hinst) hid
    · exact absurd (hnext ▸ hh) (by simp [LoopPc.held])
  · intro hyes
    rw [if_pos hyes] at hnext
    have hheld' : t.loop.held = some { task, now, submitted := true } := hnext ▸ rfl
    exact ⟨task, State.held_mem_instances hheld', rfl⟩

omit [DecidableEq φ] in
/-- What the condition says of an event of the executor, by how it ends the loop's call. -/
theorem accepted_exec_iff {f : Executor.Event (p + 1) n k} (T : System (p + 1) n k) :
    P.Accepted (.exec f) ↔
      match ending P.exec T f with
      | some .throws => False
      | some .givesUp => ∀ h ∈ P.sched.loop.held, h.task.Periodic
      | some .returns | none => True := by
  cases f with
  | testRunning q =>
    cases q with
    | client c =>
      unfold Accepted ending
      dsimp only
      by_cases hc : c = loopThread ∧ P.exec.running = false
      · rw [if_pos hc]
        exact iff_of_false (fun h => absurd (h hc.1) (by simp [hc.2])) id
      · rw [if_neg hc]
        refine iff_of_true (fun hloop => ?_) trivial
        exact Bool.eq_true_of_not_eq_false fun hstopped => hc ⟨hloop, hstopped⟩
    | scheduler | worker w => exact Iff.rfl
  | giveUp q =>
    cases q with
    | client c =>
      unfold Accepted ending
      dsimp only
      by_cases hc : c = loopThread
      · rw [if_pos hc]
        exact forall_prop_of_true hc
      · rw [if_neg hc]
        exact iff_of_true (fun hloop => absurd hloop hc) trivial
    | scheduler | worker w => exact Iff.rfl
  | act a =>
    unfold ending
    by_cases hend : P.exec.exec.clients loopThread ≠ .idle ∧ T.exec.clients loopThread = .idle
    · rw [if_pos hend]
      exact Iff.rfl
    · rw [if_neg hend]
      exact Iff.rfl
  | workerLoop w | noTask w | schedulerLoop | callStop j | stop j => exact Iff.rfl

/-- An event keeps the program sound exactly if it meets the condition. -/
theorem sound_step (hP : Kept P) (hstep : P.step e = some Q) :
    Q.Sound ↔ P.Sound ∧ P.Accepted e := by
  obtain ⟨hlive, hjoint⟩ := step_joint hstep
  have hnot : P.sched.loop ≠ .threw := fun h => absurd (hP.threw h) (by simp [hlive])
  cases hjoint with
  | sched inner next exec lost =>
    have hnot' : Q.sched.loop ≠ .threw := fun h => hnot (step_threw next inner h)
    simp [Sound, hnot, hnot', lost, Accepted]
  | submit task now loop sched next lost => simp [Sound, sched, lost, Accepted]
  | goes foreign next goesOn sched lost =>
    have haccepted : P.Accepted (.exec _) := (accepted_exec_iff Q.exec).mpr (by rw [goesOn]; trivial)
    unfold Sound
    rw [sched, lost]
    exact (and_iff_left haccepted).symm
  | ends how next ends sched lost =>
    have hthrew := (resumes_loop sched).1
    rw [accepted_exec_iff Q.exec, ends]
    cases how with
    | throws =>
      -- The exception is out.
      exact iff_of_false (fun h => h.1 (hthrew.mpr rfl)) fun h => h.2
    | returns =>
      have hnot' : Q.sched.loop ≠ .threw := fun h => absurd (hthrew.mp h) (by simp)
      simp [Sound, hnot, hnot', lost]
    | givesUp =>
      have hnot' : Q.sched.loop ≠ .threw := fun h => absurd (hthrew.mp h) (by simp)
      rw [← dropped_eq_nil_iff hP.distinct sched]
      simp [Sound, hnot, hnot', lost]

/-- **Refused tasks.** In every run of a scheduler and its executor no exception has left
`scheduler_loop` and no due task that was refused is gone from the schedule, exactly if every
submission of the loop found the pool running and none of a task that runs once gave up. -/
theorem sound_iff {start : Int} {es : List (Event m p n k φ)}
    (run : Run step free (new m p n k φ start) es P) :
    P.Sound ↔ Run step Accepted (new m p n k φ start) es P := by
  refine run.exact_iff kept_step (fun _ _ _ hP hstep => sound_step hP hstep) (kept_new start) ?_
  exact ⟨by simp [new, TaskScheduler.new], rfl⟩

/-! ### Schedules of a program with one client, one worker and one caller of `stop` -/

namespace Schedule

def execs (fs : List (Executor.Event 1 1 1)) : List (Event 1 0 1 1 Unit) := fs.map .exec

/-- A task for 5 ns is taken at 7 ns, and its submission comes to `ThreadPool::submit`. -/
def due : List (Event 1 0 1 1 Unit) :=
  [.sched (.start 0), .sched (.client 0), .sched (.scheduleAt 0 () 5 "once" {}), .sched .loop,
    .sched .loop, .sched .loop, .sched (.read 7 0), .submit] ++
  execs (Executor.Schedule.acts (Executor.Schedule.client 8))

/-- The pool takes the task before `stop` clears `running_`. -/
def stopAfter : List (Event 1 0 1 1 Unit) :=
  due ++ execs (.testRunning (.client 0) :: Executor.Schedule.acts (Executor.Schedule.client 1) ++
    Executor.Schedule.stop)

/-- `running_` is cleared when the submission comes to testing it. -/
def stopBefore : List (Event 1 0 1 1 Unit) :=
  due ++ execs (Executor.Schedule.stop ++ [.testRunning (.client 0)])

end Schedule

theorem sound_iff_stopAfter :
    ∃ P : Program 1 0 1 1 Unit, Run step free (new 1 0 1 1 Unit 0) Schedule.stopAfter P ∧
      P.sched.log = [.scheduled ⟨(), "once", {}, 5, 0, 1⟩, .taken ⟨(), "once", {}, 5, 0, 1⟩ 7,
        .submitted ⟨(), "once", {}, 5, 0, 1⟩ 7] ∧
      P.exec.exec.queued = [1] ∧ P.exec.running = false ∧ P.Sound := by
  have hrun : Run step Accepted (new 1 0 1 1 Unit 0) Schedule.stopAfter _ :=
    .of_isSome (by decide +kernel)
  exact ⟨_, hrun.toFree, by decide +kernel, by decide +kernel, by decide +kernel,
    (sound_iff hrun.toFree).mpr hrun⟩

theorem refused_submission_throws :
    ∃ P : Program 1 0 1 1 Unit, Run step free (new 1 0 1 1 Unit 0) Schedule.stopBefore P ∧
      P.sched.loop = .threw ∧ P.sched.terminated = true ∧
      P.lost = [⟨(), "once", {}, 5, 0, 1⟩] ∧ ¬ P.Sound := by
  refine ⟨_, .of_isSome (by decide +kernel), by decide +kernel, by decide +kernel,
    by decide +kernel, fun h => absurd h.2 (by decide +kernel)⟩

end Program

end TaskScheduler
end NexusTask
