import NexusTask.Lib.History
import NexusTask.TaskScheduler.Changes

/-!
# What the loop submits

What the history says of a task is a bound on its instances: none of a task that ran and was to run
once, none of one that was cancelled, and those of a periodic one all have its interval. With these
`Recorded` carries itself through every change, and each submission is the instance the loop has in
hand.
-/

set_option autoImplicit false

namespace NexusTask
namespace TaskScheduler

open Transition History

variable {m : Nat} {φ : Type}

/-- A task is not submitted after a `cancel` of it that returned true, and one that is to run once
not after it was submitted. -/
def Once (before : List (Entry φ)) : Entry φ → Prop
  | .submitted task _ => .cancelled task.id true ∉ before ∧
      (¬ task.Periodic → ∀ task' now', .submitted task' now' ∈ before → task'.id ≠ task.id)
  | _ => True

/-- A task is not submitted before it is due. -/
def Due : Entry φ → Prop
  | .submitted task now => task.scheduledTime ≤ now
  | _ => True

/-- The history and the instances agree. -/
structure Recorded (s : State m φ) : Prop where
  distinct : Distinct s
  once : ∀ task now, .submitted task now ∈ s.log → ¬ task.Periodic →
    ∀ inst ∈ s.instances, inst.id ≠ task.id
  cancelled : ∀ id, .cancelled id true ∈ s.log → ∀ inst ∈ s.instances, inst.id ≠ id
  interval : ∀ task now, .submitted task now ∈ s.log → ∀ inst ∈ s.instances, inst.id = task.id →
    inst.interval = task.interval
  due : ∀ h, s.loop.held = some h → h.task.scheduledTime ≤ h.now
  history : EachAfter (fun before e => Once before e ∧ Due e) s.log

theorem recorded_new (now : Int) : Recorded (new m φ now) where
  distinct := distinct_new now
  once _ _ h := absurd h List.not_mem_nil
  cancelled _ h := absurd h List.not_mem_nil
  interval _ _ h := absurd h List.not_mem_nil
  due _ h := absurd h (by simp [new, LoopPc.held])
  history := eachAfter_nil

namespace Recorded

variable {s t : State m φ} {task : ScheduledTask φ} {h : Held φ} {e : Entry φ}

/-- An entry that is not a submission. -/
theorem history_concat (hs : Recorded s) (he : ∀ task now, e ≠ .submitted task now) :
    EachAfter (fun before e => Once before e ∧ Due e) (s.log ++ [e]) := by
  refine eachAfter_concat.mpr ⟨hs.history, ?_⟩
  cases e with
  | submitted task now => exact absurd rfl (he task now)
  | _ => exact ⟨trivial, trivial⟩

/-- The entry of a history that grew by something else. -/
theorem mem_of_concat {l : List (Entry φ)} {e' : Entry φ} (h : e' ∈ l ++ [e]) (hne : e' ≠ e) :
    e' ∈ l := by
  rcases List.mem_append.mp h with h | h
  · exact h
  · exact absurd (List.mem_singleton.mp h) hne

/-- Every instance is one there was, at another time perhaps, and nothing was submitted. -/
theorem shrink (hs : Recorded s) (hd : Distinct t)
    (hinstances : ∀ inst ∈ t.instances, ∃ inst' ∈ s.instances,
      inst'.id = inst.id ∧ inst'.interval = inst.interval)
    (hdue : ∀ h, t.loop.held = some h → h.task.scheduledTime ≤ h.now)
    (hsubmitted : ∀ task now, Entry.submitted task now ∈ t.log → .submitted task now ∈ s.log)
    (hcancelled : ∀ id, .cancelled id true ∈ t.log →
      .cancelled id true ∈ s.log ∨ ∀ inst ∈ t.instances, inst.id ≠ id)
    (hhistory : EachAfter (fun before e => Once before e ∧ Due e) t.log) : Recorded t := by
  refine ⟨hd, ?_, ?_, ?_, hdue, hhistory⟩
  · intro task now hlog honce inst hinst
    obtain ⟨inst', hinst', hid, _⟩ := hinstances inst hinst
    exact hid ▸ hs.once task now (hsubmitted _ _ hlog) honce inst' hinst'
  · intro id hlog inst hinst
    rcases hcancelled id hlog with hold | hgone
    · obtain ⟨inst', hinst', hid, _⟩ := hinstances inst hinst
      exact hid ▸ hs.cancelled id hold inst' hinst'
    · exact hgone inst hinst
  · intro task now hlog inst hinst hsame
    obtain ⟨inst', hinst', hid, hinterval⟩ := hinstances inst hinst
    exact hinterval ▸ hs.interval task now (hsubmitted _ _ hlog) inst' hinst' (hid.trans hsame)

/-- A task with an id nothing in the history is about. -/
theorem scheduled (hs : Recorded s) (hd : Distinct t) (fresh : s.nextId ≤ task.id)
    (tasks : t.tasks = s.tasks ++ [task]) (held : t.loop.held = s.loop.held)
    (log : t.log = s.log ++ [.scheduled task]) : Recorded t := by
  have hinstances : ∀ inst ∈ t.instances, inst = task ∨ inst ∈ s.instances := fun inst hinst =>
    (State.mem_instances_push tasks held).mp hinst
  have hnew : ∀ id, id < s.nextId → task.id ≠ id := fun id hlt heq =>
    absurd (heq ▸ fresh) (Nat.not_le.mpr hlt)
  have hsubmitted : ∀ task' now, Entry.submitted task' now ∈ t.log →
      .submitted task' now ∈ s.log := fun task' now h => mem_of_concat (log ▸ h) (by simp)
  refine ⟨hd, ?_, ?_, ?_, held ▸ hs.due, log ▸ hs.history_concat (by simp)⟩
  · intro task' now hlog honce inst hinst
    rcases hinstances inst hinst with rfl | hinst
    · exact hnew _ (hs.distinct.logged _ (hsubmitted _ _ hlog))
    · exact hs.once task' now (hsubmitted _ _ hlog) honce inst hinst
  · intro id hlog inst hinst
    have hlog' : .cancelled id true ∈ s.log := mem_of_concat (log ▸ hlog) (by simp)
    rcases hinstances inst hinst with rfl | hinst
    · exact hnew _ (hs.distinct.logged _ hlog' rfl)
    · exact hs.cancelled id hlog' inst hinst
  · intro task' now hlog inst hinst hid
    rcases hinstances inst hinst with rfl | hinst
    · exact absurd hid (hnew _ (hs.distinct.logged _ (hsubmitted _ _ hlog)))
    · exact hs.interval task' now (hsubmitted _ _ hlog) inst hinst hid

/-- The task in hand is submitted. -/
theorem submitted (hs : Recorded s) (hd : Distinct t) {now : Int} (tasks : t.tasks = s.tasks)
    (had : s.loop.held = some { task, now, submitted := false })
    (held : t.loop.held = if task.Periodic then some { task, now, submitted := true } else none)
    (log : t.log = s.log ++ [.submitted task now]) : Recorded t := by
  have hmem := State.held_mem_instances had
  have hheld : ∀ h, t.loop.held = some h →
      task.Periodic ∧ h = { task, now, submitted := true } := by
    intro h hh
    rw [held] at hh
    split at hh
    next hperiodic => exact ⟨hperiodic, (Option.some.inj hh).symm⟩
    next => exact absurd hh (by simp)
  have hinstances : ∀ inst ∈ t.instances, inst ∈ s.tasks ∨ task.Periodic ∧ inst = task := by
    intro inst hinst
    rcases State.mem_instances.mp hinst with hinst | ⟨h, hh, rfl⟩
    · exact .inl (tasks ▸ hinst)
    · obtain ⟨hperiodic, rfl⟩ := hheld h hh
      exact .inr ⟨hperiodic, rfl⟩
  have hold : ∀ inst ∈ t.instances, inst ∈ s.instances := by
    intro inst hinst
    rcases hinstances inst hinst with hinst | ⟨_, rfl⟩
    · exact State.task_mem_instances hinst
    · exact hmem
  have hsubmitted : ∀ task' now', Entry.submitted task' now' ∈ t.log →
      .submitted task' now' ∈ s.log ∨ task' = task ∧ now' = now := by
    intro task' now' hlog
    rw [log] at hlog
    rcases List.mem_append.mp hlog with hlog | hlog
    · exact .inl hlog
    · exact .inr (Entry.submitted.inj (List.mem_singleton.mp hlog))
  refine ⟨hd, ?_, ?_, ?_, ?_, ?_⟩
  · intro task' now' hlog honce inst hinst
    rcases hsubmitted task' now' hlog with hlog | ⟨rfl, rfl⟩
    · exact hs.once task' now' hlog honce inst (hold inst hinst)
    · -- It was to run once, so the copy is gone.
      rcases hinstances inst hinst with hinst | ⟨hperiodic, _⟩
      · exact hs.distinct.held_ne had hinst
      · exact absurd hperiodic honce
  · intro id hlog inst hinst
    exact hs.cancelled id (mem_of_concat (log ▸ hlog) (by simp)) inst (hold inst hinst)
  · intro task' now' hlog inst hinst hid
    rcases hsubmitted task' now' hlog with hlog | ⟨rfl, rfl⟩
    · exact hs.interval task' now' hlog inst (hold inst hinst) hid
    · rcases hinstances inst hinst with hinst | ⟨_, rfl⟩
      · exact absurd hid (hs.distinct.held_ne had hinst)
      · rfl
  · intro h hh
    obtain ⟨_, rfl⟩ := hheld h hh
    exact hs.due { task, now, submitted := false } had
  · rw [log]
    refine eachAfter_concat.mpr ⟨hs.history, ⟨fun hcancelled => ?_, ?_⟩, hs.due _ had⟩
    · exact hs.cancelled task.id hcancelled task hmem rfl
    · intro honce task' now' hlog hid
      have hinterval := hs.interval task' now' hlog task hmem hid.symm
      have honce' : ¬ task'.Periodic := fun h => honce (hinterval.symm ▸ h : 0 < task.interval)
      exact hs.once task' now' hlog honce' task hmem hid.symm

theorem change {c : Option TaskId} (hs : Recorded s) (hchange : Change s t c) : Recorded t := by
  have hd := hs.distinct.change hchange
  -- The instances of `t`, where each is one of `s` and unchanged.
  have hsame : (∀ inst ∈ t.tasks, inst ∈ s.tasks) →
      (∀ h, t.loop.held = some h → h.task ∈ s.instances) → ∀ inst ∈ t.instances,
        ∃ inst' ∈ s.instances, inst'.id = inst.id ∧ inst'.interval = inst.interval := by
    intro htasks hheld inst hinst
    rcases State.mem_instances.mp hinst with hmem | ⟨h, hh, rfl⟩
    · exact ⟨inst, State.task_mem_instances (htasks inst hmem), rfl, rfl⟩
    · exact ⟨h.task, hheld h hh, rfl, rfl⟩
  cases hchange with
  | quiet tasks held nextId log =>
    refine hs.shrink hd (hsame (tasks ▸ fun _ h => h) ?_) (held ▸ hs.due) (log ▸ fun _ _ h => h)
      (log ▸ fun _ h => .inl h) (log ▸ hs.history)
    exact fun h hh => State.held_mem_instances (held ▸ hh)
  | scheduled task fresh tasks held nextId log => exact hs.scheduled hd fresh tasks held log
  | cancelled id order perm tasks held nextId log =>
    rw [drain_snd] at tasks
    have hkept : ∀ inst ∈ t.tasks, inst ∈ s.tasks ∧ inst.id ≠ id := by
      intro inst hinst
      rw [tasks] at hinst
      obtain ⟨hmem, hid⟩ := List.mem_filter.mp hinst
      exact ⟨perm.mem_iff.mp hmem, of_decide_eq_true hid⟩
    refine hs.shrink hd (hsame (fun inst hinst => (hkept inst hinst).1) ?_) (held ▸ hs.due)
      (fun task now h => mem_of_concat (log ▸ h) (by simp)) ?_ (log ▸ hs.history_concat (by simp))
    · exact fun h hh => State.held_mem_instances (held ▸ hh)
    · intro id' hlog
      rw [log] at hlog
      rcases List.mem_append.mp hlog with hlog | hlog
      · exact .inl hlog
      · -- The task was found on the heap, so it is not the one in hand.
        obtain ⟨rfl, hfound⟩ := Entry.cancelled.inj (List.mem_singleton.mp hlog)
        obtain ⟨task, hmem, rfl⟩ := (drain_fst_iff _ order).mp hfound.symm
        refine .inr fun inst hinst => ?_
        rcases State.mem_instances.mp hinst with hinst | ⟨h, hh, rfl⟩
        · exact (hkept inst hinst).2
        · exact (hs.distinct.held_ne (held ▸ hh) (perm.mem_iff.mp hmem)).symm
  | taken task now top get least due tasks free held nextId log =>
    have htaken : ∀ h, t.loop.held = some h → h = { task, now, submitted := false } := fun h hh =>
      (Option.some.inj (held.symm.trans hh)).symm
    refine hs.shrink hd (hsame ?_ ?_) ?_ (fun task now h => mem_of_concat (log ▸ h) (by simp))
      (fun id h => .inl (mem_of_concat (log ▸ h) (by simp))) (log ▸ hs.history_concat (by simp))
    · exact fun inst hinst => List.mem_of_mem_eraseIdx (tasks ▸ hinst)
    · exact fun h hh => htaken h hh ▸ State.task_mem_instances (List.mem_of_getElem? get)
    · exact fun h hh => htaken h hh ▸ due
  | submitted task now tasks had held nextId log => exact hs.submitted hd tasks had held log
  | pushedBack task now had tasks held nextId log =>
    refine hs.shrink hd ?_ (by simp [held]) (log ▸ fun _ _ h => h) (log ▸ fun _ h => .inl h)
      (log ▸ hs.history)
    intro inst hinst
    rw [State.mem_instances, tasks, held] at hinst
    rcases hinst with hinst | ⟨h, hh, _⟩
    · rcases List.mem_append.mp hinst with hinst | hinst
      · exact ⟨inst, State.task_mem_instances hinst, rfl, rfl⟩
      · -- It has the id and the interval of the copy.
        obtain rfl := List.mem_singleton.mp hinst
        exact ⟨task, State.held_mem_instances had, rfl, rfl⟩
    · exact absurd hh (by simp)
  | threw task now had tasks held nextId log finished =>
    exact hs.shrink hd (hsame (tasks ▸ fun _ h => h) (by simp [held])) (by simp [held])
      (log ▸ fun _ _ h => h) (log ▸ fun _ h => .inl h) (log ▸ hs.history)

end Recorded

variable [DecidableEq φ]

theorem recorded_step : Preserved step free fun s : State m φ => Recorded s :=
  fun _ _ _ h _ hstep => h.change (step_change hstep)

variable {s t : State m φ} {task : ScheduledTask φ} {now : Int}

/-- The loop takes a task that is not after any it leaves on the heap. -/
theorem taken_least {top : Nat} (hstep : step s (.read now top) = some t)
    (htaken : t.loop = .submitting task now) :
    ∀ other ∈ t.tasks, task.scheduledTime ≤ other.scheduledTime := by
  cases (step_taken hstep).2 with
  | schedules c first clock free due => exact absurd due (by simp [Action.due])
  | reads now top first loop get after least =>
    unfold State.look at htaken ⊢
    split at htaken
    next hdue =>
      obtain ⟨rfl, _⟩ := LoopPc.submitting.inj htaken
      rw [if_pos hdue]
      exact fun other hmem => least other (List.mem_of_mem_eraseIdx hmem)
    next => exact absurd htaken (by simp)

/-- `cancel` leaves the other tasks as they are. -/
theorem cancel_tasks {c : Fin m} {id : TaskId} {order : List (ScheduledTask φ)}
    (hstep : step s (.cancel c id order) = some t) :
    t.tasks.Perm (s.tasks.filter (·.id ≠ id)) := by
  cases (step_taken hstep).2 with
  | schedules d first clock free due => exact absurd due (by simp [Action.due])
  | cancels c id order free perm sorted =>
    show (drain id order).2.Perm _
    rw [drain_snd]
    exact perm.filter _

/-- **What is submitted.** In every run a task that is to run once is submitted at most once, no
task is submitted after a `cancel` of it that returned true, and none before it is due; none is
taken while an earlier one is on the heap, and `cancel` leaves the other tasks on the heap as they
are. -/
theorem submissions_lawful {start : Int} {as : List (Action m φ)}
    (run : Run step free (new m φ start) as s) :
    EachAfter Once s.log ∧
    (∀ task now, .submitted task now ∈ s.log → task.scheduledTime ≤ now) ∧
    (∀ now top task t, step s (.read now top) = some t → t.loop = .submitting task now →
      ∀ other ∈ t.tasks, task.scheduledTime ≤ other.scheduledTime) ∧
    (∀ c id order t, step s (.cancel c id order) = some t →
      t.tasks.Perm (s.tasks.filter (·.id ≠ id))) := by
  have hs : Recorded s := run.invariant recorded_step (recorded_new start)
  refine ⟨hs.history.mono fun _ _ h => h.1, ?_, fun _ _ _ _ => taken_least,
    fun _ _ _ _ => cancel_tasks⟩
  intro task now hlog
  obtain ⟨before, after, hsplit⟩ := List.append_of_mem hlog
  exact (hs.history before _ after hsplit).2

/-- A task for 5 ns and one for every millisecond. The first runs at 7 ns, the other is cancelled.
-/
theorem submissions_lawful_cancelled :
    ∃ s : State 1 Unit, Run step free (new 1 Unit 0)
      [.start 0, .client 0, .scheduleAt 0 () 5 "once" {},
        .schedulePeriodic 0 () 1 1 "ticker" {}, .loop, .loop, .loop, .read 7 0, .submitReturns,
        .cancel 0 2 [⟨(), "ticker", {}, 1000001, 1, 2⟩]] s ∧
      s.log = [.scheduled ⟨(), "once", {}, 5, 0, 1⟩, .scheduled ⟨(), "ticker", {}, 1000001, 1, 2⟩,
        .taken ⟨(), "once", {}, 5, 0, 1⟩ 7, .submitted ⟨(), "once", {}, 5, 0, 1⟩ 7,
        .cancelled 2 true] ∧
      EachAfter Once s.log := by
  have hrun : Run step free (new 1 Unit 0)
      [.start 0, .client 0, .scheduleAt 0 () 5 "once" {},
        .schedulePeriodic 0 () 1 1 "ticker" {}, .loop, .loop, .loop, .read 7 0, .submitReturns,
        .cancel 0 2 [⟨(), "ticker", {}, 1000001, 1, 2⟩]] _ := Run.of_isSome (by decide)
  exact ⟨_, hrun, by decide, (submissions_lawful hrun).1⟩

end TaskScheduler
end NexusTask
