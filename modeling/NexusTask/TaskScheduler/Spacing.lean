import NexusTask.TaskScheduler.Submissions

/-!
# How far apart the loop submits a periodic task

`scheduler_loop` pushes the task again with the reading it took it at plus the interval. Where that
sum is a value of `int64_t` the instance on the heap is due a whole interval after the last
submission, and `Apart` carries this through every change. Where it is not, what is stored is
earlier: for `milliseconds::max()` it is a millisecond before the reading, so the loop takes the
task at once and for ever (`longest_interval`).
-/

set_option autoImplicit false

namespace NexusTask
namespace TaskScheduler

open Transition History

variable {m : Nat} {φ : Type}

/-- If the step pushes a task again, the reading and the interval have a sum. -/
def RepushFits (s : State m φ) : Action m φ → Prop
  | .loop => ∀ h ∈ s.loop.held, h.submitted = true → MillisFit h.now h.task.interval
  | _ => True

instance (s : State m φ) : (a : Action m φ) → Decidable (RepushFits s a)
  | .loop => inferInstanceAs (Decidable (∀ h ∈ s.loop.held, _))
  | .scheduleAt .. | .scheduleAfter .. | .schedulePeriodic .. | .cancel .. | .start _ | .stop _
  | .leave _ | .client _ | .tick _ | .read .. | .submitReturns | .submitThrows | .wake | .timeout =>
      .isTrue trivial

/-- A task is not submitted within an interval of its last submission. -/
def Spaced (before : List (Entry φ)) : Entry φ → Prop
  | .submitted task now => ∀ task' now', .submitted task' now' ∈ before → task'.id = task.id →
      task'.interval = task.interval ∧ now' + task'.period ≤ now
  | _ => True

/-- No instance comes within an interval of a submission of its task. -/
structure Apart (s : State m φ) : Prop where
  recorded : Recorded s
  queued : ∀ task now, .submitted task now ∈ s.log → ∀ inst ∈ s.tasks, inst.id = task.id →
    now + task.period ≤ inst.scheduledTime
  /-- The one in hand was taken an interval after it, or it is that submission's. -/
  inHand : ∀ task now, .submitted task now ∈ s.log → ∀ h, s.loop.held = some h →
    h.task.id = task.id → if h.submitted then now ≤ h.now else now + task.period ≤ h.now
  history : EachAfter Spaced s.log

theorem apart_new (now : Int) : Apart (new m φ now) where
  recorded := recorded_new now
  queued _ _ h := absurd h List.not_mem_nil
  inHand _ _ h := absurd h List.not_mem_nil
  history := eachAfter_nil

namespace Apart

variable {s t : State m φ} {task : ScheduledTask φ}

/-- An entry that is not a submission. -/
theorem history_concat (hs : Apart s) {e : Entry φ} (he : ∀ task now, e ≠ .submitted task now) :
    EachAfter Spaced (s.log ++ [e]) := by
  refine eachAfter_concat.mpr ⟨hs.history, ?_⟩
  cases e with
  | submitted task now => exact absurd rfl (he task now)
  | _ => exact trivial

/-- The instances are no more than before, and nothing was submitted. -/
theorem shrink (hs : Apart s) (hr : Recorded t) (htasks : ∀ inst ∈ t.tasks, inst ∈ s.tasks)
    (hheld : ∀ h, t.loop.held = some h → s.loop.held = some h)
    (hsubmitted : ∀ task now, Entry.submitted task now ∈ t.log → .submitted task now ∈ s.log)
    (hhistory : EachAfter Spaced t.log) : Apart t := by
  refine ⟨hr, ?_, ?_, hhistory⟩
  · intro task now hlog inst hinst
    exact hs.queued task now (hsubmitted _ _ hlog) inst (htasks inst hinst)
  · intro task now hlog h hh
    exact hs.inHand task now (hsubmitted _ _ hlog) h (hheld h hh)

/-- The task in hand is submitted. -/
theorem submitted (hs : Apart s) (hr : Recorded t) {now : Int} (tasks : t.tasks = s.tasks)
    (had : s.loop.held = some { task, now, submitted := false })
    (held : t.loop.held = if task.Periodic then some { task, now, submitted := true } else none)
    (log : t.log = s.log ++ [.submitted task now]) : Apart t := by
  have hsubmitted : ∀ task' now', Entry.submitted task' now' ∈ t.log →
      .submitted task' now' ∈ s.log ∨ task' = task ∧ now' = now := by
    intro task' now' hlog
    rw [log] at hlog
    rcases List.mem_append.mp hlog with hlog | hlog
    · exact .inl hlog
    · exact .inr (Entry.submitted.inj (List.mem_singleton.mp hlog))
  have hinterval : ∀ task' now', Entry.submitted task' now' ∈ s.log → task.id = task'.id →
      task.interval = task'.interval ∧ now' + task'.period ≤ now := by
    intro task' now' hlog hid
    have hmem := State.held_mem_instances had
    exact ⟨hs.recorded.interval task' now' hlog task hmem hid, hs.inHand task' now' hlog _ had hid⟩
  refine ⟨hr, ?_, ?_, ?_⟩
  · intro task' now' hlog inst hinst hid
    rw [tasks] at hinst
    rcases hsubmitted task' now' hlog with hlog | ⟨rfl, rfl⟩
    · exact hs.queued task' now' hlog inst hinst hid
    · exact absurd hid (hs.recorded.distinct.held_ne had hinst)
  · intro task' now' hlog h hh hid
    rw [held] at hh
    split at hh
    next hperiodic =>
      obtain rfl := Option.some.inj hh
      show now' ≤ now
      rcases hsubmitted task' now' hlog with hlog | ⟨rfl, rfl⟩
      · obtain ⟨hsame, hafter⟩ := hinterval task' now' hlog hid
        have hpos : 0 < task'.interval := hsame ▸ hperiodic
        unfold ScheduledTask.period at hafter
        omega
      · exact le_refl now'
    next => exact absurd hh (by simp)
  · rw [log]
    refine eachAfter_concat.mpr ⟨hs.history, ?_⟩
    intro task' now' hlog hid
    obtain ⟨hsame, hafter⟩ := hinterval task' now' hlog hid.symm
    exact ⟨hsame.symm, hafter⟩

/-- The task in hand is pushed again, an interval after the reading. -/
theorem pushedBack (hs : Apart s) (hr : Recorded t) {now : Int}
    (had : s.loop.held = some { task, now, submitted := true })
    (tasks : t.tasks = s.tasks ++ [{ task with scheduledTime := afterMillis now task.interval }])
    (held : t.loop.held = none) (log : t.log = s.log) (hfits : MillisFit now task.interval) :
    Apart t := by
  refine ⟨hr, ?_, by simp [held], log ▸ hs.history⟩
  intro task' now' hlog inst hinst hid
  rw [log] at hlog
  rw [tasks] at hinst
  rcases List.mem_append.mp hinst with hinst | hinst
  · exact hs.queued task' now' hlog inst hinst hid
  · obtain rfl := List.mem_singleton.mp hinst
    have hmem := State.held_mem_instances had
    have hsame : task.interval = task'.interval :=
      hs.recorded.interval task' now' hlog task hmem hid
    have hle : now' ≤ now := hs.inHand task' now' hlog _ had hid
    show now' + task'.period ≤ afterMillis now task.interval
    rw [afterMillis_eq hfits, hsame]
    exact Int.add_le_add_right hle _

theorem change {c : Option TaskId} (hs : Apart s) (hchange : Change s t c)
    (hfits : ∀ h, s.loop.held = some h → h.submitted = true → t.loop.held = none →
      MillisFit h.now h.task.interval) : Apart t := by
  have hr := hs.recorded.change hchange
  cases hchange with
  | quiet tasks held nextId log =>
    exact hs.shrink hr (tasks ▸ fun _ h => h) (held ▸ fun _ h => h) (log ▸ fun _ _ h => h)
      (log ▸ hs.history)
  | scheduled task fresh tasks held nextId log =>
    have hsubmitted : ∀ task' now, Entry.submitted task' now ∈ t.log →
        .submitted task' now ∈ s.log := fun _ _ h => Recorded.mem_of_concat (log ▸ h) (by simp)
    refine ⟨hr, ?_, ?_, log ▸ hs.history_concat (by simp)⟩
    · intro task' now hlog inst hinst hid
      rw [tasks] at hinst
      rcases List.mem_append.mp hinst with hinst | hinst
      · exact hs.queued task' now (hsubmitted _ _ hlog) inst hinst hid
      · -- The new id is not one of a task that was submitted.
        obtain rfl := List.mem_singleton.mp hinst
        have hbelow : task'.id < s.nextId :=
          hs.recorded.distinct.logged _ (hsubmitted _ _ hlog)
        exact absurd hid (Nat.ne_of_gt (Nat.lt_of_lt_of_le hbelow fresh))
    · intro task' now hlog
      rw [held]
      exact hs.inHand task' now (hsubmitted _ _ hlog)
  | cancelled id order perm tasks held nextId log =>
    rw [drain_snd] at tasks
    refine hs.shrink hr ?_ (held ▸ fun _ h => h)
      (fun task now h => Recorded.mem_of_concat (log ▸ h) (by simp))
      (log ▸ hs.history_concat (by simp))
    exact fun inst hinst => perm.mem_iff.mp (List.mem_of_mem_filter (tasks ▸ hinst))
  | taken task now top get least due tasks free held nextId log =>
    have hmem : task ∈ s.tasks := List.mem_of_getElem? get
    have hsubmitted : ∀ task' now, Entry.submitted task' now ∈ t.log →
        .submitted task' now ∈ s.log := fun _ _ h => Recorded.mem_of_concat (log ▸ h) (by simp)
    refine ⟨hr, ?_, ?_, log ▸ hs.history_concat (by simp)⟩
    · intro task' now' hlog inst hinst
      exact hs.queued task' now' (hsubmitted _ _ hlog) inst
        (List.mem_of_mem_eraseIdx (tasks ▸ hinst))
    · intro task' now' hlog h hh hid
      obtain rfl := Option.some.inj (held.symm.trans hh)
      exact le_trans (hs.queued task' now' (hsubmitted _ _ hlog) task hmem hid) due
  | submitted task now tasks had held nextId log => exact hs.submitted hr tasks had held log
  | pushedBack task now had tasks held nextId log =>
    exact hs.pushedBack hr had tasks held log (hfits _ had rfl held)
  | threw task now had tasks held nextId log finished =>
    exact hs.shrink hr (tasks ▸ fun _ h => h) (by simp [held]) (log ▸ fun _ _ h => h)
      (log ▸ hs.history)

end Apart

variable [DecidableEq φ] {s t : State m φ} {a : Action m φ}

/-- Only the loop lets go of a task it has submitted. -/
theorem loop_of_released {h : Held φ} (hstep : step s a = some t) (had : s.loop.held = some h)
    (hsubmitted : h.submitted = true) (hnone : t.loop.held = none) : a = .loop := by
  have hkept : t.loop.held ≠ s.loop.held := fun heq => by
    rw [hnone, had] at heq
    exact absurd heq (by simp)
  cases (step_taken hstep).2 with
  | loops => rfl
  | schedules | notifies | wakes => exact absurd (LoopPc.held_notified _) hkept
  | cancels | starts | startsNot | stops | stopsNot | leaves | spawnsTwice | joinsNot | ticks =>
    exact absurd rfl hkept
  | spawns c spawning absent => exact absurd had (by simp [absent, LoopPc.held])
  | joins c joining left => exact absurd had (by simp [left, LoopPc.held])
  | reads now top task loop => exact absurd had (by simp [loop, LoopPc.held])
  | submitReturns task now loop | submitThrows task now loop =>
    rw [loop] at had
    obtain rfl := Option.some.inj had
    exact absurd hsubmitted (by simp)
  | timesOut deadline loop => exact absurd had (by simp [loop, LoopPc.held])

theorem apart_step : Preserved step RepushFits fun s : State m φ => Apart s := by
  intro s a t h hok hstep
  refine h.change (step_change hstep) fun held had hsubmitted hnone => ?_
  obtain rfl := loop_of_released hstep had hsubmitted hnone
  exact hok held had hsubmitted

/-- What is pushed again is the same task. -/
theorem relock_tasks {task : ScheduledTask φ} {now : Int} (hs : Recorded s)
    (hloop : s.loop = .relock task now) (hstep : step s .loop = some t) :
    t.tasks = s.tasks ++ [{ task with scheduledTime := afterMillis now task.interval }] ∧
      task.Periodic := by
  refine ⟨?_, hs.distinct.periodic { task, now, submitted := true } (hloop ▸ rfl) rfl⟩
  cases (step_taken hstep).2 with
  | schedules c first clock free due => exact absurd due (by simp [Action.due])
  | loops next =>
    simp only [State.loopStep, hloop] at next
    exact Option.some.inj next ▸ rfl

/-- **Periodic tasks.** In every run in which the sums of the loop can be had a task has at most one
instance, its submissions are its interval apart, and the instance that is pushed again is due its
interval after the reading it was taken at. Where such a sum cannot be had, the instance is due
earlier than that. -/
theorem periodic_spaced {start : Int} {as : List (Action m φ)}
    (run : Run step RepushFits (new m φ start) as s) :
    (s.instances.map ScheduledTask.id).Nodup ∧
    EachAfter Spaced s.log ∧
    ∀ task now t, s.loop = .relock task now → step s .loop = some t →
      ∃ inst, t.tasks = s.tasks ++ [inst] ∧ inst.id = task.id ∧
        (RepushFits s .loop → inst.scheduledTime = now + task.period ∧ now < inst.scheduledTime) ∧
        (¬ RepushFits s .loop → 0 ≤ now → inst.scheduledTime < now + task.period) := by
  have hs : Apart s := run.invariant apart_step (apart_new start)
  refine ⟨hs.recorded.distinct.nodup, hs.history, ?_⟩
  intro task now t hloop hstep
  obtain ⟨htasks, hperiodic⟩ := relock_tasks hs.recorded hloop hstep
  have hfits : RepushFits s .loop ↔ MillisFit now task.interval := by
    simp [RepushFits, hloop, LoopPc.held]
  rw [hfits]
  refine ⟨_, htasks, rfl, fun h => ?_, fun h hnow => afterMillis_lt hnow hperiodic h⟩
  have hdue : afterMillis now task.interval = now + task.period := afterMillis_eq h
  have hpos : 0 < task.period := Int.mul_pos hperiodic (by decide)
  exact ⟨hdue, by simp only [hdue]; omega⟩

/-- A task for every millisecond, taken at 1.5 ms and again at 2.5 ms. -/
theorem periodic_spaced_twice :
    ∃ s : State 1 Unit, Run step RepushFits (new 1 Unit 0)
      [.start 0, .client 0, .schedulePeriodic 0 () 0 1 "ticker" {}, .loop, .loop, .loop,
        .read 1500000 0, .submitReturns, .loop, .loop, .loop, .loop, .read 2500000 0,
        .submitReturns] s ∧
      s.log = [.scheduled ⟨(), "ticker", {}, 1000000, 1, 1⟩,
        .taken ⟨(), "ticker", {}, 1000000, 1, 1⟩ 1500000,
        .submitted ⟨(), "ticker", {}, 1000000, 1, 1⟩ 1500000,
        .taken ⟨(), "ticker", {}, 2500000, 1, 1⟩ 2500000,
        .submitted ⟨(), "ticker", {}, 2500000, 1, 1⟩ 2500000] ∧
      EachAfter Spaced s.log := by
  have hrun : Run step RepushFits (new 1 Unit 0)
      [.start 0, .client 0, .schedulePeriodic 0 () 0 1 "ticker" {}, .loop, .loop, .loop,
        .read 1500000 0, .submitReturns, .loop, .loop, .loop, .loop, .read 2500000 0,
        .submitReturns] _ := Run.of_isSome (by decide)
  exact ⟨_, hrun, by decide, (periodic_spaced hrun).2.1⟩

/-- The longest interval there is, scheduled at 2 ms: the task is due at 1 ms. Taken half a
microsecond later it is pushed again for half a microsecond past 1 ms, and taken once more. -/
theorem longest_interval :
    ∃ s : State 1 Unit, Run step free (new 1 Unit 0)
      [.start 0, .client 0, .schedulePeriodic 0 () 2000000 (2 ^ 63 - 1) "never" {}, .loop, .loop,
        .loop, .read 2000500 0, .submitReturns, .loop, .loop, .loop, .loop, .read 2001000 0,
        .submitReturns] s ∧
      s.log = [.scheduled ⟨(), "never", {}, 1000000, 2 ^ 63 - 1, 1⟩,
        .taken ⟨(), "never", {}, 1000000, 2 ^ 63 - 1, 1⟩ 2000500,
        .submitted ⟨(), "never", {}, 1000000, 2 ^ 63 - 1, 1⟩ 2000500,
        .taken ⟨(), "never", {}, 1000500, 2 ^ 63 - 1, 1⟩ 2001000,
        .submitted ⟨(), "never", {}, 1000500, 2 ^ 63 - 1, 1⟩ 2001000] ∧
      ¬ EachAfter Spaced s.log := by
  have hrun : Run step free (new 1 Unit 0)
      [.start 0, .client 0, .schedulePeriodic 0 () 2000000 (2 ^ 63 - 1) "never" {}, .loop, .loop,
        .loop, .read 2000500 0, .submitReturns, .loop, .loop, .loop, .loop, .read 2001000 0,
        .submitReturns] _ := Run.of_isSome (by decide)
  refine ⟨_, hrun, by decide, fun hspaced => ?_⟩
  have hlast := hspaced [.scheduled ⟨(), "never", {}, 1000000, 2 ^ 63 - 1, 1⟩,
    .taken ⟨(), "never", {}, 1000000, 2 ^ 63 - 1, 1⟩ 2000500,
    .submitted ⟨(), "never", {}, 1000000, 2 ^ 63 - 1, 1⟩ 2000500,
    .taken ⟨(), "never", {}, 1000500, 2 ^ 63 - 1, 1⟩ 2001000]
    (.submitted ⟨(), "never", {}, 1000500, 2 ^ 63 - 1, 1⟩ 2001000) [] (by decide)
  have hapart := (hlast ⟨(), "never", {}, 1000000, 2 ^ 63 - 1, 1⟩ 2000500 (by simp) rfl).2
  exact absurd hapart (by decide)

end TaskScheduler
end NexusTask
