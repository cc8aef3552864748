import NexusTask.TaskScheduler.Changes

/-!
# How the loop waits

`scheduler_loop` waits without a deadline when the heap is empty, and until the task on top is due
when it is not. The predicate of the timed wait looks at `running_` only, so a task pushed meanwhile
that is due earlier wakes the loop and does not keep it from waiting for the old deadline: `Prompt`
excludes such a push. `stop` stores `running_` and notifies without `mutex_`, so its notification
may fall between the loop's test and its block: `Heard` excludes that.

`Move` says once what a step does to the wait.
-/

set_option autoImplicit false

namespace NexusTask
namespace TaskScheduler

open Transition

variable {m : Nat} {φ : Type}

/-- The wait the loop is in or goes into. A loop that is about to test the predicate of the untimed
wait is in none: it reads the heap again. -/
inductive Wait
  | none
  | untimed
  | timed (deadline : Int)
  deriving DecidableEq

def Wait.deadline : Wait → Option Int
  | .timed deadline => some deadline
  | _ => .none

namespace LoopPc

def wait : LoopPc φ → Wait
  | .block | .waiting => .untimed
  | .testTimedWait deadline | .timedBlock deadline | .timedWaiting deadline
  | .timedWoken deadline => .timed deadline
  | _ => .none

/-- It is blocked and no notification is on its way to it. -/
def blocked : LoopPc φ → Bool
  | .waiting | .timedWaiting _ => true
  | _ => false

/-- A notification ends the wait, or leaves it as it is. -/
theorem wait_notified (pc : LoopPc φ) :
    pc.notified.wait = pc.wait ∨ pc.notified.wait = .none := by
  cases pc with
  | waiting => exact .inr rfl
  | _ => exact .inl rfl

/-- Only a loop that is about to block, with `mutex_` in its hand, does not notice it. -/
theorem eq_block_of_notified {pc : LoopPc φ} (h : pc.notified.wait = .untimed) : pc = .block := by
  cases pc with
  | block => rfl
  | _ => exact absurd h (by simp [notified, wait])

/-- A timed wait goes on for its deadline. -/
theorem notified_of_timed {pc : LoopPc φ} {deadline : Int} (h : pc.wait = .timed deadline)
    (hfree : pc.holdsMutex = false) : pc.notified = .timedWoken deadline := by
  cases pc with
  | timedWaiting d | timedWoken d =>
    obtain rfl := Wait.timed.inj h
    rfl
  | testTimedWait d | timedBlock d => exact absurd hfree (by simp [holdsMutex])
  | _ => exact absurd h (by simp [wait])

end LoopPc

/-- The loop sleeps over no task: where it is blocked and the heap is not empty, it is in the timed
wait, and for no longer than until the first task is due. -/
def State.Punctual (s : State m φ) : Prop :=
  s.loop.blocked = true → s.tasks ≠ [] →
    ∃ deadline, s.loop = .timedWaiting deadline ∧
      ∀ task ∈ s.tasks, deadline ≤ task.scheduledTime

/-- The condition on a step: no task is pushed during a timed wait that is due before its
deadline. -/
def Prompt (s : State m φ) (a : Action m φ) : Prop :=
  ∀ deadline ∈ s.loop.wait.deadline, ∀ time ∈ a.due, deadline ≤ time

instance (s : State m φ) (a : Action m φ) : Decidable (Prompt s a) :=
  inferInstanceAs (Decidable (∀ deadline ∈ _, ∀ time ∈ _, deadline ≤ time))

/-- `stop` has notified, the loop is blocked, and no thread is left that would notify it. -/
structure State.Stuck (s : State m φ) : Prop where
  stopped : s.running = false
  joining : ∃ c, s.clients c = .joining
  blocked : s.loop = .waiting
  nobody : ∀ c, s.clients c ≠ .idle ∧ s.clients c ≠ .notifying

/-- The notification client `c` is about to issue finds the loop between its test and its block,
after the last `running_.exchange`, and no other one is coming. -/
structure State.Missed (s : State m φ) (c : Fin m) : Prop where
  stopped : s.running = false
  block : s.loop = .block
  last : ∀ d, d ≠ c → s.clients d ≠ .notifying

/-- The condition on a step: `stop` notifies a loop that hears it. -/
def Heard (s : State m φ) : Action m φ → Prop
  | .client c => s.clients c = .notifying → ¬ s.Missed c
  | _ => True

instance [DecidableEq φ] (s : State m φ) (c : Fin m) : Decidable (s.Missed c) :=
  decidable_of_iff
    (s.running = false ∧ s.loop = .block ∧ ∀ d, d ≠ c → s.clients d ≠ .notifying)
    ⟨fun ⟨h₁, h₂, h₃⟩ => ⟨h₁, h₂, h₃⟩, fun ⟨h₁, h₂, h₃⟩ => ⟨h₁, h₂, h₃⟩⟩

instance [DecidableEq φ] (s : State m φ) : (a : Action m φ) → Decidable (Heard s a)
  | .client c => inferInstanceAs (Decidable (s.clients c = .notifying → ¬ s.Missed c))
  | .scheduleAt .. | .scheduleAfter .. | .schedulePeriodic .. | .cancel .. | .start _ | .stop _
  | .leave _ | .tick _ | .loop | .read .. | .submitReturns | .submitThrows | .wake | .timeout =>
    .isTrue trivial

/-! ## What a step does to the wait -/

inductive Move (s t : State m φ) : Action m φ → Prop
  /-- The loop is in no wait, or leaves it. -/
  | leaves {a} (wait : t.loop.wait = .none) : Move s t a
  | keeps {a} (wait : t.loop.wait = s.loop.wait) (tasks : t.tasks ⊆ s.tasks)
      (running : t.running = false → s.running = false)
      (clients : ∀ c, s.clients c = .notifying → t.clients c = .notifying) : Move s t a
  | stops {a} (c : Fin m) (wait : t.loop.wait = s.loop.wait) (tasks : t.tasks = s.tasks)
      (client : t.clients c = .notifying) : Move s t a
  | notifies (c : Fin m) (client : s.clients c = .notifying) (loop : t.loop = s.loop.notified)
      (tasks : t.tasks = s.tasks) (running : t.running = s.running)
      (clients : ∀ d, d ≠ c → t.clients d = s.clients d) : Move s t (.client c)
  | pushes {a} (task : ScheduledTask φ) (due : a.due = some task.scheduledTime)
      (free : s.loop.holdsMutex = false) (loop : t.loop = s.loop.notified)
      (tasks : t.tasks = s.tasks ++ [task]) : Move s t a
  /-- The predicate of the untimed wait was false. -/
  | settles {a} (wait : t.loop.wait = .untimed) (tasks : t.tasks = []) (running : t.running = true) :
      Move s t a
  /-- The task on top is not due. -/
  | reads {a} (deadline : Int) (wait : t.loop.wait = .timed deadline)
      (least : ∀ task ∈ t.tasks, deadline ≤ task.scheduledTime) : Move s t a

section Steps

variable {s t : State m φ}

/-- The other clients stay where they are. -/
theorem State.notifying_setClient {c : Fin m} {pc : ClientPc} (old : s.clients c ≠ .notifying) :
    ∀ d, s.clients d = .notifying → (s.setClient c pc).clients d = .notifying := by
  intro d hd
  have hne : d ≠ c := by
    rintro rfl
    exact old hd
  exact (Function.update_of_ne hne _ _).trans hd

/-- The loop does nothing. -/
theorem Move.of_setClient {c : Fin m} {pc : ClientPc} {a : Action m φ}
    (old : s.clients c ≠ .notifying) : Move s (s.setClient c pc) a :=
  .keeps rfl (List.Subset.refl _) id (State.notifying_setClient old)

theorem loopStep_move (h : s.loopStep = some t) : Move s t .loop := by
  unfold State.loopStep at h
  cases hloop : s.loop with
  | testWait =>
    rw [hloop] at h
    obtain rfl := Option.some.inj h
    by_cases hawake : (!s.running || !s.tasks.isEmpty) = true
    · exact .leaves (by rw [if_pos hawake]; rfl)
    · obtain ⟨hrunning, hempty⟩ : s.running = true ∧ s.tasks = [] := by simpa using hawake
      exact .settles (by rw [if_neg hawake]; rfl) hempty hrunning
  | testTimedWait deadline =>
    rw [hloop] at h
    obtain rfl := Option.some.inj h
    by_cases hstopped : (!s.running) = true
    · exact .leaves (by rw [if_pos hstopped]; rfl)
    · exact .keeps (by rw [hloop, if_neg hstopped]; rfl) (List.Subset.refl _) id fun _ h => h
  | testRunning | testEmpty =>
    rw [hloop] at h
    refine Option.some.inj h ▸ .leaves ?_
    dsimp only
    split <;> rfl
  | lock | woken | relock _ _ =>
    rw [hloop] at h
    exact Option.some.inj h ▸ .leaves rfl
  | block | timedBlock _ | timedWoken _ =>
    rw [hloop] at h
    exact Option.some.inj h ▸ .keeps (by rw [hloop]; rfl) (List.Subset.refl _) id fun _ h => h
  | absent | waiting | readClock | submitting _ _ | timedWaiting _ | left | threw =>
    rw [hloop] at h
    exact absurd h (by simp)

variable [DecidableEq φ] {a : Action m φ}

/-- **Every step makes one of these moves.** -/
theorem step_move (h : step s a = some t) : Move s t a := by
  cases (step_taken h).2 with
  | schedules c task clock free due fresh after => exact .pushes task due free.2 rfl rfl
  | cancels c id order free perm sorted =>
    refine .keeps rfl ?_ (fun hrunning => hrunning) fun _ hd => hd
    show (drain id order).2 ⊆ s.tasks
    rw [drain_snd]
    exact fun task hmem => perm.subset (List.mem_of_mem_filter hmem)
  | starts c idle stopped =>
    refine .keeps rfl (List.Subset.refl _) (fun hrunning => ?_)
      (State.notifying_setClient (by simp [idle]))
    exact absurd hrunning (by simp [State.setClient])
  | stops c idle running => exact .stops c rfl rfl (Function.update_self _ _ _)
  | leaves c idle => exact .of_setClient (by simp [idle])
  | startsNot | stopsNot | spawnsTwice | ticks =>
    exact .keeps rfl (List.Subset.refl _) id fun _ hd => hd
  | notifies c notifying =>
    exact .notifies c notifying rfl rfl rfl fun d hd => Function.update_of_ne hd _ _
  | joinsNot c joining absent => exact .of_setClient (by simp [joining])
  | spawns | joins | submitThrows | timesOut => exact .leaves rfl
  | loops next => exact loopStep_move next
  | reads now top task loop get after least =>
    unfold State.look
    split
    next => exact .leaves rfl
    next => exact .reads task.scheduledTime rfl least
  | submitReturns task now loop =>
    refine .leaves ?_
    dsimp only
    split <;> rfl
  | wakes =>
    rcases s.loop.wait_notified with hwait | hwait
    · exact .keeps hwait (List.Subset.refl _) id fun _ hd => hd
    · exact .leaves hwait

end Steps

/-! ## Tasks that are due before the deadline -/

/-- The wait the loop is in suits the heap. -/
def Suited (s : State m φ) : Prop :=
  (s.loop.wait = .untimed → s.tasks = []) ∧
  ∀ deadline, s.loop.wait = .timed deadline → ∀ task ∈ s.tasks, deadline ≤ task.scheduledTime

theorem Suited.of_none {s : State m φ} (h : s.loop.wait = .none) : Suited s :=
  ⟨fun h' => absurd (h.symm.trans h') (by simp), fun _ h' => absurd (h.symm.trans h') (by simp)⟩

theorem suited_new (now : Int) : Suited (new m φ now) := .of_none rfl

theorem Suited.punctual {s : State m φ} (h : Suited s) : s.Punctual := by
  intro hblocked hne
  cases hloop : s.loop with
  | waiting => exact absurd (h.1 (by rw [hloop]; rfl)) hne
  | timedWaiting deadline => exact ⟨deadline, rfl, h.2 deadline (by rw [hloop]; rfl)⟩
  | _ => exact absurd hblocked (by simp [hloop, LoopPc.blocked])

/-- A task is pushed that is not due before the deadline. -/
theorem Suited.push {s t : State m φ} {task : ScheduledTask φ} (h : Suited s)
    (hfree : s.loop.holdsMutex = false)
    (hprompt : ∀ deadline ∈ s.loop.wait.deadline, deadline ≤ task.scheduledTime)
    (loop : t.loop = s.loop.notified) (tasks : t.tasks = s.tasks ++ [task]) : Suited t := by
  constructor
  · intro hwait
    rw [loop] at hwait
    exact absurd hfree (by simp [LoopPc.eq_block_of_notified hwait, LoopPc.holdsMutex])
  · intro deadline hwait other hother
    rw [loop] at hwait
    have hold : s.loop.wait = .timed deadline := by
      rcases s.loop.wait_notified with hsame | hnone
      · exact hsame.symm.trans hwait
      · exact absurd (hnone.symm.trans hwait) (by simp)
    rw [tasks] at hother
    rcases List.mem_append.mp hother with hother | hother
    · exact h.2 deadline hold other hother
    · obtain rfl := List.mem_singleton.mp hother
      exact hprompt deadline (by rw [hold]; rfl)

theorem Suited.move {s t : State m φ} {a : Action m φ} (h : Suited s) (hprompt : Prompt s a)
    (hmove : Move s t a) : Suited t := by
  cases hmove with
  | leaves wait => exact .of_none wait
  | keeps wait tasks running clients =>
    refine ⟨fun hwait => ?_, fun deadline hwait task hmem => ?_⟩
    · exact List.subset_nil.mp (h.1 (wait ▸ hwait) ▸ tasks)
    · exact h.2 deadline (wait ▸ hwait) task (tasks hmem)
  | stops c wait tasks client => exact ⟨wait ▸ tasks ▸ h.1, wait ▸ tasks ▸ h.2⟩
  | notifies c client loop tasks running clients =>
    rcases s.loop.wait_notified with hwait | hwait
    · rw [← loop] at hwait
      exact ⟨hwait ▸ tasks ▸ h.1, hwait ▸ tasks ▸ h.2⟩
    · exact .of_none (loop ▸ hwait)
  | pushes task due free loop tasks =>
    exact h.push free (fun deadline hwait => hprompt deadline hwait _ due) loop tasks
  | settles wait tasks running =>
    exact ⟨fun _ => tasks, fun _ hwait => absurd (wait.symm.trans hwait) (by simp)⟩
  | reads deadline wait least =>
    refine ⟨fun hwait => absurd (wait.symm.trans hwait) (by simp), fun deadline' hwait => ?_⟩
    obtain rfl := Wait.timed.inj (wait.symm.trans hwait)
    exact least

/-! ## The notification of `stop` -/

/-- A notification is on its way to a loop that waits for one. -/
def Summoned (s : State m φ) : Prop :=
  s.running = false → s.loop.wait = .untimed → ∃ c, s.clients c = .notifying

theorem summoned_new (now : Int) : Summoned (new m φ now) :=
  fun _ hwait => absurd hwait (by simp [new, LoopPc.wait])

theorem Summoned.not_stuck {s : State m φ} (h : Summoned s) : ¬ s.Stuck := by
  intro hstuck
  obtain ⟨c, hc⟩ := h hstuck.stopped (by rw [hstuck.blocked]; rfl)
  exact (hstuck.nobody c).2 hc

theorem Summoned.move {s t : State m φ} {a : Action m φ} (h : Summoned s) (hheard : Heard s a)
    (hmove : Move s t a) : Summoned t := by
  intro hstopped hwait
  cases hmove with
  | leaves wait => exact absurd (wait.symm.trans hwait) (by simp)
  | keeps wait tasks running clients =>
    obtain ⟨c, hc⟩ := h (running hstopped) (wait.symm.trans hwait)
    exact ⟨c, clients c hc⟩
  | stops c wait tasks client => exact ⟨c, client⟩
  | notifies c client loop tasks running clients =>
    -- The loop stands between its test and its block, so another notification is coming.
    have hblock := LoopPc.eq_block_of_notified (loop ▸ hwait)
    by_contra hnone
    push Not at hnone
    refine hheard client ⟨running ▸ hstopped, hblock, fun d hd => ?_⟩
    exact clients d hd ▸ hnone d
  | pushes task due free loop tasks =>
    have hblock := LoopPc.eq_block_of_notified (loop ▸ hwait)
    exact absurd free (by simp [hblock, LoopPc.holdsMutex])
  | settles wait tasks running => exact absurd (running.symm.trans hstopped) (by simp)
  | reads deadline wait least => exact absurd (wait.symm.trans hwait) (by simp)

variable [DecidableEq φ] {start : Int} {as : List (Action m φ)} {s t : State m φ} {a : Action m φ}

theorem suited_step : Preserved step Prompt fun s : State m φ => Suited s :=
  fun _ _ _ h hprompt hstep => h.move hprompt (step_move hstep)

theorem summoned_step : Preserved step Heard fun s : State m φ => Summoned s :=
  fun _ _ _ h hheard hstep => h.move hheard (step_move hstep)

/-! ## Where the conditions are not met -/

/-- The loop, woken from the timed wait, goes back to it over a task that is due earlier. -/
theorem exists_oversleeps {deadline : Int} {task : ScheduledTask φ} (hlive : s.terminated = false)
    (hrunning : s.running = true) (hloop : s.loop = .timedWoken deadline) (hmem : task ∈ s.tasks)
    (hearly : task.scheduledTime < deadline) :
    ∃ t, Run step free s [.loop, .loop, .loop] t ∧ ¬ t.Punctual := by
  have htest : step s .loop = some { s with loop := .testTimedWait deadline } := by
    simp [step, hlive, State.loopStep, hloop]
  have hblock : step { s with loop := .testTimedWait deadline } .loop =
      some { s with loop := .timedBlock deadline } := by
    simp [step, hlive, State.loopStep, hrunning]
  have hwait : step { s with loop := .timedBlock deadline } .loop =
      some { s with loop := .timedWaiting deadline } := by
    simp [step, hlive, State.loopStep]
  refine ⟨_, .cons trivial htest (.cons trivial hblock (.single trivial hwait)), fun h => ?_⟩
  obtain ⟨deadline', hloop', hle⟩ := h rfl (List.ne_nil_of_mem hmem)
  obtain rfl := LoopPc.timedWaiting.inj hloop'
  exact absurd (hle task hmem) (Int.not_le.mpr hearly)

/-- A push that is not prompt can be followed by steps that leave the loop asleep over the task. -/
theorem exists_oversleeps_of_not_prompt (hstep : step s a = some t) (hprompt : ¬ Prompt s a) :
    ∃ bs u, Run step free t bs u ∧ ¬ u.Punctual := by
  unfold Prompt at hprompt
  push Not at hprompt
  obtain ⟨deadline, hwait, time, hdue, hearly⟩ := hprompt
  obtain ⟨c, task, clock, hfree, rfl, rfl⟩ := step_due hstep hdue
  have hlive : s.terminated = false := step_live hstep
  have hloop : s.loop.notified = .timedWoken deadline := by
    refine LoopPc.notified_of_timed ?_ hfree.2
    cases hold : s.loop.wait with
    | timed deadline' =>
      rw [hold] at hwait
      exact congrArg _ (Option.some.inj hwait)
    | none | untimed =>
      rw [hold] at hwait
      exact absurd hwait (by simp [Wait.deadline])
  have hmem : task ∈ s.tasks ++ [task] := List.mem_append_right _ (List.mem_singleton_self _)
  rcases Bool.eq_false_or_eq_true s.running with hrunning | hrunning
  · obtain ⟨u, hrun, hu⟩ := exists_oversleeps (s := { s with clock }.push task) hlive hrunning hloop
      hmem hearly
    exact ⟨_, u, hrun, hu⟩
  · -- The client calls `start` before the loop looks.
    have hstart : step ({ s with clock }.push task) (.start c) =
        some ({ { s with clock }.push task with running := true }.setClient c .spawning) := by
      simp [step, State.push, hlive, hfree.1, hrunning]
    obtain ⟨u, hrun, hu⟩ := exists_oversleeps
      (s := { { s with clock }.push task with running := true }.setClient c .spawning) hlive rfl
      hloop hmem hearly
    exact ⟨_, u, .cons trivial hstart hrun, hu⟩

/-- The idle clients make no more calls. -/
theorem exists_leave (hlive : s.terminated = false) (cs : List (Fin m)) :
    ∃ bs u, Run step free s bs u ∧ u.terminated = false ∧ u.running = s.running ∧
      u.loop = s.loop ∧ (∀ c, u.clients c = s.clients c ∨ u.clients c = .gone) ∧
      (∀ c, s.clients c ≠ .idle → u.clients c = s.clients c) ∧ ∀ c ∈ cs, u.clients c ≠ .idle := by
  induction cs with
  | nil => exact ⟨[], s, .nil, hlive, rfl, rfl, fun _ => .inl rfl, fun _ _ => rfl, by simp⟩
  | cons c cs ih =>
    obtain ⟨bs, u, hrun, hu, hrunning, hloop, hmoved, hkept, hcs⟩ := ih
    by_cases hc : u.clients c = .idle
    · have hleave : step u (.leave c) = some (u.setClient c .gone) := by simp [step, hu, hc]
      have hself : (u.setClient c .gone).clients c = .gone := Function.update_self _ _ _
      have hother : ∀ d, d ≠ c → (u.setClient c .gone).clients d = u.clients d :=
        fun d hd => Function.update_of_ne hd _ _
      refine ⟨bs ++ [.leave c], u.setClient c .gone, .snoc hrun trivial hleave, hu, hrunning, hloop,
        fun d => ?_, fun d hd => ?_, fun d hd => ?_⟩
      · by_cases hdc : d = c
        · exact .inr (hdc ▸ hself)
        · rw [hother d hdc]
          exact hmoved d
      · have hdc : d ≠ c := by
          rintro rfl
          exact hd ((hkept d hd).symm.trans hc)
        exact (hother d hdc).trans (hkept d hd)
      · by_cases hdc : d = c
        · rw [hdc, hself]
          simp
        · rw [hother d hdc]
          exact hcs d ((List.mem_cons.mp hd).resolve_left hdc)
    · refine ⟨bs, u, hrun, hu, hrunning, hloop, hmoved, hkept, fun d hd => ?_⟩
      rcases List.mem_cons.mp hd with rfl | hd
      · exact hc
      · exact hcs d hd

/-- The loop blocks after the last notification, and the clients leave. -/
theorem exists_stuck {c : Fin m} (hlive : s.terminated = false) (hstopped : s.running = false)
    (hblock : s.loop = .block) (hjoining : s.clients c = .joining)
    (hlast : ∀ d, s.clients d ≠ .notifying) : ∃ bs u, Run step free s bs u ∧ u.Stuck := by
  have hwait : step s .loop = some { s with loop := .waiting } := by
    simp [step, hlive, State.loopStep, hblock]
  obtain ⟨bs, u, hrun, _, hrunning, hloop, hmoved, hkept, hleft⟩ := exists_leave
    (s := { s with loop := .waiting }) hlive (List.finRange m)
  refine ⟨.loop :: bs, u, .cons trivial hwait hrun, hrunning.trans hstopped, ⟨c, ?_⟩, hloop,
    fun d => ⟨hleft d (List.mem_finRange d), fun hd => ?_⟩⟩
  · exact (hkept c (by simp [hjoining])).trans hjoining
  · rcases hmoved d with hsame | hgone
    · exact hlast d (hsame.symm.trans hd)
    · exact absurd (hgone.symm.trans hd) (by simp)

/-- A notification that is not heard can be followed by steps after which `stop` waits forever. -/
theorem exists_stuck_of_not_heard (hstep : step s a = some t) (hheard : ¬ Heard s a) :
    ∃ bs u, Run step free t bs u ∧ u.Stuck := by
  cases a with
  | client c =>
    unfold Heard at hheard
    push Not at hheard
    obtain ⟨hc, hmissed⟩ := hheard
    have hlive : s.terminated = false := step_live hstep
    obtain rfl : s.notify.setClient c .joining = t := by
      simpa [step, hlive, State.clientStep, hc] using hstep
    have hblock : s.loop.notified = .block := by
      rw [hmissed.block]
      rfl
    refine exists_stuck hlive hmissed.stopped hblock (Function.update_self c _ _) fun d hd => ?_
    by_cases hdc : d = c
    · subst hdc
      exact absurd ((Function.update_self d _ _).symm.trans hd) (by simp)
    · exact hmissed.last d hdc ((Function.update_of_ne hdc _ _).symm.trans hd)
  | _ => exact absurd trivial hheard

/-- **Earlier tasks.** If no step of a run pushes, during a timed wait, a task that is due before
its deadline, the loop is never asleep over a task; a step that does can be followed by steps after
which it is. -/
theorem punctual_of_prompt (run : Run step Prompt (new m φ start) as s) :
    (Run step (fun s _ => s.Punctual) (new m φ start) as s ∧ s.Punctual) ∧
    ∀ a t, step s a = some t → ¬ Prompt s a → ∃ bs u, Run step free t bs u ∧ ¬ u.Punctual :=
  ⟨run.always suited_step (fun _ h => h.punctual) (suited_new start),
    fun _ _ => exists_oversleeps_of_not_prompt⟩

/-- The loop waits for a task due at 100 ns; one due at 200 ns wakes it, and it waits again. -/
theorem punctual_of_prompt_later :
    ∃ s : State 1 Unit, Run step free (new 1 Unit 0)
      [.start 0, .client 0, .scheduleAt 0 () 100 "late" {}, .loop, .loop, .loop, .read 7 0, .loop,
        .loop, .scheduleAt 0 () 200 "later" {}, .loop, .loop, .loop] s ∧
      s.loop = .timedWaiting 100 ∧
      s.tasks = [⟨(), "late", {}, 100, 0, 1⟩, ⟨(), "later", {}, 200, 0, 2⟩] ∧ s.Punctual := by
  have hrun : Run step Prompt (new 1 Unit 0)
      [.start 0, .client 0, .scheduleAt 0 () 100 "late" {}, .loop, .loop, .loop, .read 7 0, .loop,
        .loop, .scheduleAt 0 () 200 "later" {}, .loop, .loop, .loop] _ := Run.of_isSome (by decide)
  exact ⟨_, hrun.toFree, by decide, by decide, (punctual_of_prompt hrun).1.2⟩

/-- The same with a task due at 50 ns: at 60 ns the loop is asleep over it, until 100 ns. -/
theorem sleeps_over_earlier :
    ∃ s : State 1 Unit, Run step free (new 1 Unit 0)
      [.start 0, .client 0, .scheduleAt 0 () 100 "late" {}, .loop, .loop, .loop, .read 7 0, .loop,
        .loop, .scheduleAt 0 () 50 "early" {}, .loop, .loop, .loop, .tick 60] s ∧
      s.loop = .timedWaiting 100 ∧ s.clock = 60 ∧
      s.tasks = [⟨(), "late", {}, 100, 0, 1⟩, ⟨(), "early", {}, 50, 0, 2⟩] ∧ ¬ s.Punctual := by
  obtain ⟨s, hrun, hloop, hclock, htasks⟩ : ∃ s : State 1 Unit, Run step free (new 1 Unit 0)
      [.start 0, .client 0, .scheduleAt 0 () 100 "late" {}, .loop, .loop, .loop, .read 7 0, .loop,
        .loop, .scheduleAt 0 () 50 "early" {}, .loop, .loop, .loop, .tick 60] s ∧
      s.loop = .timedWaiting 100 ∧ s.clock = 60 ∧
      s.tasks = [⟨(), "late", {}, 100, 0, 1⟩, ⟨(), "early", {}, 50, 0, 2⟩] :=
    ⟨_, Run.of_isSome (by decide), by decide, by decide, by decide⟩
  refine ⟨s, hrun, hloop, hclock, htasks, fun h => ?_⟩
  obtain ⟨deadline, hdeadline, hle⟩ := h (by rw [hloop]; rfl) (by simp [htasks])
  obtain rfl := LoopPc.timedWaiting.inj (hloop.symm.trans hdeadline)
  exact absurd (hle ⟨(), "early", {}, 50, 0, 2⟩ (by simp [htasks])) (by decide)

/-- **The notification of `stop`.** If every notification `stop` issues is heard, no state of a run
is stuck; one that is not heard can be followed by steps to a stuck state. -/
theorem not_stuck_of_heard (run : Run step Heard (new m φ start) as s) :
    (Run step (fun s _ => ¬ s.Stuck) (new m φ start) as s ∧ ¬ s.Stuck) ∧
    ∀ a t, step s a = some t → ¬ Heard s a → ∃ bs u, Run step free t bs u ∧ u.Stuck :=
  ⟨run.always summoned_step (fun _ h => h.not_stuck) (summoned_new start),
    fun _ _ => exists_stuck_of_not_heard⟩

/-- The loop is blocked when `stop` notifies it, and is joined. -/
theorem not_stuck_of_heard_joined :
    ∃ s : State 1 Unit, Run step free (new 1 Unit 0)
      [.start 0, .client 0, .loop, .loop, .loop, .loop, .loop, .stop 0, .client 0, .loop, .loop,
        .loop, .client 0] s ∧
      s.loop = .absent ∧ s.running = false ∧ ¬ s.Stuck := by
  have hrun : Run step Heard (new 1 Unit 0)
      [.start 0, .client 0, .loop, .loop, .loop, .loop, .loop, .stop 0, .client 0, .loop, .loop,
        .loop, .client 0] _ := Run.of_isSome (by decide)
  exact ⟨_, hrun.toFree, by decide, by decide, (not_stuck_of_heard hrun).1.2⟩

/-- `stop` notifies between the loop's test of the predicate and its block. -/
theorem stuck_in_join :
    ∃ s : State 1 Unit, Run step free (new 1 Unit 0)
      [.start 0, .client 0, .loop, .loop, .loop, .loop, .stop 0, .client 0, .loop] s ∧
      s.Stuck := by
  refine ⟨_, Run.of_isSome (by decide), by decide, ⟨0, by decide⟩, by decide, ?_⟩
  decide

end TaskScheduler
end NexusTask
