import NexusTask.TaskScheduler.Submissions

/-!
# Cancelling a periodic task

Between its pop and its push a periodic task is in the loop's hand, and `cancel`, which looks at the
heap, does not see it. A `cancel` that falls there returns false and changes nothing, and the task
goes on. `SparesHeld` excludes exactly these calls: in every run they are what decides whether
`cancel` finds every periodic task that is not cancelled yet, and whether a cancelled one is taken
again.
-/

set_option autoImplicit false

namespace NexusTask
namespace TaskScheduler

open Transition History

variable {m : Nat} {φ : Type}

/-- A periodic task was scheduled under the id. -/
def WasScheduled (l : List (Entry φ)) (id : TaskId) : Prop :=
  ∃ task, .scheduled task ∈ l ∧ task.id = id ∧ task.Periodic

/-- And then `cancel` was called for it, whatever it returned. -/
def WasCancelled (l : List (Entry φ)) (id : TaskId) : Prop :=
  SomeAfter (fun before e => (∃ found, e = .cancelled id found) ∧ WasScheduled before id) l

/-- A `cancel` of a periodic task that is not cancelled yet returns true, and the loop takes no task
that was cancelled. -/
def Obeyed (before : List (Entry φ)) : Entry φ → Prop
  | .cancelled id found => WasScheduled before id → ¬ WasCancelled before id → found = true
  | .taken task _ => ¬ WasCancelled before task.id
  | _ => True

/-- The loop does not have the periodic task in hand that is to be cancelled. -/
def State.Spares (s : State m φ) (id : TaskId) : Prop :=
  match s.loop.held with
  | some h => h.task.Periodic → h.task.id ≠ id
  | none => True

/-- The condition on a step: a `cancel` does not fall between the pop of its task and the push. -/
def SparesHeld (s : State m φ) (a : Action m φ) : Prop :=
  match a.cancels with
  | some id => s.Spares id
  | none => True

instance (s : State m φ) (id : TaskId) : Decidable (s.Spares id) :=
  match hheld : s.loop.held with
  | some h => decidable_of_iff (h.task.Periodic → h.task.id ≠ id) (by simp only [State.Spares, hheld])
  | none => .isTrue (by simp only [State.Spares, hheld])

instance (s : State m φ) (a : Action m φ) : Decidable (SparesHeld s a) :=
  match hcancels : a.cancels with
  | some id => decidable_of_iff (s.Spares id) (by simp only [SparesHeld, hcancels])
  | none => .isTrue (by simp only [SparesHeld, hcancels])

/-! ## The history grows -/

theorem wasCancelled_concat {l : List (Entry φ)} {e : Entry φ} {id : TaskId} :
    WasCancelled (l ++ [e]) id ↔
      WasCancelled l id ∨ (∃ found, e = .cancelled id found) ∧ WasScheduled l id :=
  someAfter_concat

/-- An entry that is no cancellation. -/
theorem wasCancelled_concat_of_ne {l : List (Entry φ)} {e : Entry φ} {id : TaskId}
    (he : ∀ found, e ≠ .cancelled id found) : WasCancelled (l ++ [e]) id ↔ WasCancelled l id :=
  wasCancelled_concat.trans (or_iff_left fun h => h.1.elim he)

/-- What was cancelled was scheduled. -/
theorem WasCancelled.wasScheduled {l : List (Entry φ)} {id : TaskId} (h : WasCancelled l id) :
    WasScheduled l id := by
  obtain ⟨before, _, after, rfl, _, task, hmem, htask⟩ := h
  exact ⟨task, List.mem_append_left _ hmem, htask⟩

/-- The instances agree with the history. -/
structure Tracked (s : State m φ) : Prop where
  recorded : Recorded s
  /-- Every instance was scheduled, with the interval it has. -/
  origin : ∀ inst ∈ s.instances, ∃ task, .scheduled task ∈ s.log ∧ task.id = inst.id ∧
    task.interval = inst.interval
  agree : ∀ task, .scheduled task ∈ s.log → ∀ inst ∈ s.instances, inst.id = task.id →
    inst.interval = task.interval
  /-- A periodic task stays until it is cancelled. -/
  present : s.terminated = false → ∀ id, WasScheduled s.log id → ¬ WasCancelled s.log id →
    ∃ inst ∈ s.instances, inst.id = id
  /-- If `cancel` was obeyed so far, what it was called for is gone. -/
  gone : EachAfter Obeyed s.log → ∀ id, WasCancelled s.log id → ∀ inst ∈ s.instances, inst.id ≠ id

theorem tracked_new (now : Int) : Tracked (new m φ now) where
  recorded := recorded_new now
  origin _ h := absurd h List.not_mem_nil
  agree _ h := absurd h List.not_mem_nil
  present _ _ h := by
    obtain ⟨_, hmem, _⟩ := h
    exact absurd hmem List.not_mem_nil
  gone _ _ h := by
    obtain ⟨_, _, _, hsplit, _⟩ := h
    exact absurd hsplit (by simp [new])

namespace Tracked

variable {s t : State m φ} {task : ScheduledTask φ} {h : Held φ} {c : Option TaskId}

/-- The copy in hand is the periodic task of its id. -/
theorem held_periodic (hs : Tracked s) (hheld : s.loop.held = some h)
    (hscheduled : WasScheduled s.log h.task.id) : h.task.Periodic := by
  obtain ⟨task, hmem, hid, hperiodic⟩ := hscheduled
  have hinterval := hs.agree task hmem h.task (State.held_mem_instances hheld) hid.symm
  show 0 < h.task.interval
  rw [hinterval]
  exact hperiodic

/-- What a `cancel` returns is right exactly if the task is not in the loop's hand. -/
theorem obeyed_cancelled_iff (hs : Tracked s) (hlive : s.terminated = false)
    (hobeyed : EachAfter Obeyed s.log) {id : TaskId} {order : List (ScheduledTask φ)}
    (perm : order.Perm s.tasks) :
    Obeyed s.log (.cancelled id (drain id order).1) ↔ s.Spares id := by
  unfold State.Spares
  constructor
  · intro hfound
    cases hheld : s.loop.held with
    | none => trivial
    | some h =>
      intro hperiodic hid
      have hmem := State.held_mem_instances hheld
      obtain ⟨task, hscheduled, hid', hinterval⟩ := hs.origin h.task hmem
      have hwas : WasScheduled s.log id :=
        ⟨task, hscheduled, hid'.trans hid, by
          show 0 < task.interval
          rw [hinterval]
          exact hperiodic⟩
      -- The heap has no second instance of it to be found.
      obtain ⟨other, hother, hid''⟩ := (drain_fst_iff id order).mp
        (hfound hwas fun hcancelled => hs.gone hobeyed id hcancelled h.task hmem hid)
      exact hs.recorded.distinct.held_ne hheld (perm.mem_iff.mp hother) (hid''.trans hid.symm)
  · intro hspares hwas hnot
    obtain ⟨inst, hinst, rfl⟩ := hs.present hlive id hwas hnot
    rcases State.mem_instances.mp hinst with hinst | ⟨h, hheld, rfl⟩
    · exact (drain_fst_iff _ order).mpr ⟨inst, perm.mem_iff.mpr hinst, rfl⟩
    · rw [hheld] at hspares
      exact absurd rfl (hspares (hs.held_periodic hheld hwas))

/-- A step keeps `cancel` obeyed exactly if it cancels no task in the loop's hand. -/
theorem obeyed_iff (hs : Tracked s) (hlive : s.terminated = false) (hchange : Change s t c) :
    EachAfter Obeyed t.log ↔ EachAfter Obeyed s.log ∧ ∀ id, c = some id → s.Spares id := by
  cases hchange with
  | quiet tasks held nextId log => rw [log]; simp
  | scheduled task fresh tasks held nextId log => rw [log, eachAfter_concat]; simp [Obeyed]
  | cancelled id order perm tasks held nextId log =>
    rw [log, eachAfter_concat]
    refine and_congr_right fun hobeyed => ?_
    rw [hs.obeyed_cancelled_iff hlive hobeyed perm]
    simp
  | taken task now top get least due tasks free held nextId log =>
    rw [log, eachAfter_concat]
    refine and_congr_right fun hobeyed => iff_of_true ?_ (by simp)
    exact fun hcancelled => hs.gone hobeyed task.id hcancelled task
      (State.task_mem_instances (List.mem_of_getElem? get)) rfl
  | submitted task now tasks had held nextId log => rw [log, eachAfter_concat]; simp [Obeyed]
  | pushedBack task now had tasks held nextId log => rw [log]; simp
  | threw task now had tasks held nextId log finished => rw [log]; simp

/-- Nothing new was scheduled. -/
theorem of_instances (hs : Tracked s) (hr : Recorded t)
    (hscheduled : ∀ task, Entry.scheduled task ∈ t.log ↔ .scheduled task ∈ s.log)
    (hinstances : ∀ inst ∈ t.instances, ∃ inst' ∈ s.instances,
      inst'.id = inst.id ∧ inst'.interval = inst.interval)
    (hpresent : t.terminated = false → ∀ id, WasScheduled s.log id → ¬ WasCancelled t.log id →
      ∃ inst ∈ t.instances, inst.id = id)
    (hgone : EachAfter Obeyed t.log → ∀ id, WasCancelled t.log id →
      ∀ inst ∈ t.instances, inst.id ≠ id) : Tracked t where
  recorded := hr
  origin inst hinst := by
    obtain ⟨inst', hinst', hid, hinterval⟩ := hinstances inst hinst
    obtain ⟨task, hmem, hid', hinterval'⟩ := hs.origin inst' hinst'
    exact ⟨task, (hscheduled task).mpr hmem, hid'.trans hid, hinterval'.trans hinterval⟩
  agree task hmem inst hinst hid := by
    obtain ⟨inst', hinst', hid', hinterval⟩ := hinstances inst hinst
    exact hinterval.symm.trans
      (hs.agree task ((hscheduled task).mp hmem) inst' hinst' (hid'.trans hid))
  present hlive id hwas := by
    obtain ⟨task, hmem, hid, hperiodic⟩ := hwas
    exact hpresent hlive id ⟨task, (hscheduled task).mp hmem, hid, hperiodic⟩
  gone := hgone

/-- The history says nothing new on what was scheduled or cancelled. -/
theorem of_log (hs : Tracked s) (hr : Recorded t) (hlive : s.terminated = false)
    (hlog : t.log = s.log ∨ ∃ e, t.log = s.log ++ [e] ∧ (∀ task, e ≠ .scheduled task) ∧
      ∀ id found, e ≠ .cancelled id found)
    (hinstances : ∀ inst ∈ t.instances, ∃ inst' ∈ s.instances,
      inst'.id = inst.id ∧ inst'.interval = inst.interval)
    (hstay : t.terminated = false → ∀ inst ∈ s.instances, WasScheduled s.log inst.id →
      ∃ inst' ∈ t.instances, inst'.id = inst.id) : Tracked t := by
  have hscheduled : ∀ task, Entry.scheduled task ∈ t.log ↔ .scheduled task ∈ s.log := by
    intro task
    rcases hlog with hlog | ⟨e, hlog, hne, _⟩
    · rw [hlog]
    · rw [hlog]
      simp [Ne.symm (hne task)]
  have hcancelled : ∀ id, WasCancelled t.log id ↔ WasCancelled s.log id := by
    intro id
    rcases hlog with hlog | ⟨e, hlog, _, hne⟩
    · rw [hlog]
    · rw [hlog, wasCancelled_concat_of_ne (hne id)]
  have hobeyed : EachAfter Obeyed t.log → EachAfter Obeyed s.log := by
    intro h
    rcases hlog with hlog | ⟨e, hlog, _⟩
    · exact hlog ▸ h
    · exact (eachAfter_concat.mp (hlog ▸ h)).1
  refine hs.of_instances hr hscheduled hinstances ?_ ?_
  · intro hlive' id hwas hnot
    obtain ⟨inst, hinst, rfl⟩ := hs.present hlive id hwas fun h => hnot ((hcancelled id).mpr h)
    exact hstay hlive' inst hinst hwas
  · intro hall id hwas inst hinst
    obtain ⟨inst', hinst', hid, _⟩ := hinstances inst hinst
    exact hid ▸ hs.gone (hobeyed hall) id ((hcancelled id).mp hwas) inst' hinst'

/-- A task with a new id. -/
theorem scheduled (hs : Tracked s) (hr : Recorded t) (hlive : s.terminated = false)
    (fresh : s.nextId ≤ task.id) (tasks : t.tasks = s.tasks ++ [task])
    (held : t.loop.held = s.loop.held) (log : t.log = s.log ++ [.scheduled task]) : Tracked t := by
  have hinstances : ∀ inst, inst ∈ t.instances ↔ inst = task ∨ inst ∈ s.instances := fun inst =>
    State.mem_instances_push tasks held
  have hscheduled : ∀ task', Entry.scheduled task' ∈ t.log → task' = task ∨
      .scheduled task' ∈ s.log := by
    intro task' hmem
    rw [log] at hmem
    rcases List.mem_append.mp hmem with hmem | hmem
    · exact .inr hmem
    · exact .inl (Entry.scheduled.inj (List.mem_singleton.mp hmem))
  have hold : ∀ task', .scheduled task' ∈ s.log → task'.id ≠ task.id := by
    intro task' hmem heq
    have hlt : task'.id < s.nextId := hs.recorded.distinct.logged _ hmem
    exact absurd (heq ▸ hlt) (Nat.not_lt.mpr fresh)
  have hcancelled : ∀ id, WasCancelled t.log id ↔ WasCancelled s.log id := fun id => by
    rw [log, wasCancelled_concat_of_ne (by simp)]
  refine ⟨hr, ?_, ?_, ?_, ?_⟩
  · intro inst hinst
    rcases (hinstances inst).mp hinst with rfl | hinst
    · exact ⟨inst, log ▸ List.mem_append_right _ (List.mem_singleton_self _), rfl, rfl⟩
    · obtain ⟨task', hmem, hsame⟩ := hs.origin inst hinst
      exact ⟨task', log ▸ List.mem_append_left _ hmem, hsame⟩
  · intro task' hmem inst hinst hid
    rcases hscheduled task' hmem with rfl | hmem
    · rcases (hinstances inst).mp hinst with rfl | hinst
      · rfl
      · exact absurd (hid ▸ hs.recorded.distinct.below inst hinst) (Nat.not_lt.mpr fresh)
    · rcases (hinstances inst).mp hinst with rfl | hinst
      · exact absurd hid.symm (hold task' hmem)
      · exact hs.agree task' hmem inst hinst hid
  · intro _ id ⟨task', hmem, hid, hperiodic⟩ hnot
    rcases hscheduled task' hmem with rfl | hmem
    · exact ⟨task', (hinstances task').mpr (.inl rfl), hid⟩
    · obtain ⟨inst, hinst, hid'⟩ := hs.present hlive id ⟨task', hmem, hid, hperiodic⟩ fun h =>
        hnot ((hcancelled id).mpr h)
      exact ⟨inst, (hinstances inst).mpr (.inr hinst), hid'⟩
  · intro hall id hwas inst hinst
    have hwas' := (hcancelled id).mp hwas
    rcases (hinstances inst).mp hinst with rfl | hinst
    · obtain ⟨task', hmem, rfl, _⟩ := hwas'.wasScheduled
      exact (hold task' hmem).symm
    · exact hs.gone (eachAfter_concat.mp (log ▸ hall)).1 id hwas' inst hinst

/-- A `cancel`. -/
theorem cancelled (hs : Tracked s) (hr : Recorded t) (hlive : s.terminated = false) {id : TaskId}
    {order : List (ScheduledTask φ)} (perm : order.Perm s.tasks)
    (tasks : t.tasks = (drain id order).2) (held : t.loop.held = s.loop.held)
    (log : t.log = s.log ++ [.cancelled id (drain id order).1]) : Tracked t := by
  rw [drain_snd] at tasks
  have htasks : ∀ inst, inst ∈ t.tasks ↔ inst ∈ s.tasks ∧ inst.id ≠ id := by
    intro inst
    rw [tasks, List.mem_filter, perm.mem_iff]
    simp
  have hinstances : ∀ inst ∈ t.instances, inst ∈ s.instances := by
    intro inst hinst
    rcases State.mem_instances.mp hinst with hinst | hheld
    · exact State.task_mem_instances ((htasks inst).mp hinst).1
    · exact State.mem_instances.mpr (.inr (held ▸ hheld))
  refine hs.of_instances hr (fun task => by rw [log]; simp)
    (fun inst hinst => ⟨inst, hinstances inst hinst, rfl, rfl⟩) ?_ ?_
  · intro _ id' hwas hnot
    rw [log, wasCancelled_concat, not_or] at hnot
    obtain ⟨inst, hinst, rfl⟩ := hs.present hlive id' hwas hnot.1
    have hne : inst.id ≠ id := by
      rintro rfl
      exact hnot.2 ⟨⟨_, rfl⟩, hwas⟩
    refine ⟨inst, ?_, rfl⟩
    rcases State.mem_instances.mp hinst with hmem | hheld
    · exact State.task_mem_instances ((htasks inst).mpr ⟨hmem, hne⟩)
    · exact State.mem_instances.mpr (.inr (held ▸ hheld))
  · intro hall id' hwas inst hinst
    rw [log, eachAfter_concat] at hall
    rw [log, wasCancelled_concat] at hwas
    rcases hwas with hwas | ⟨⟨found, heq⟩, hscheduled⟩
    · exact hs.gone hall.1 id' hwas inst (hinstances inst hinst)
    · obtain ⟨rfl, _⟩ := Entry.cancelled.inj heq
      by_cases hwas : WasCancelled s.log id
      · exact hs.gone hall.1 id hwas inst (hinstances inst hinst)
      · -- It was found on the heap, so the copy in hand is another one.
        obtain ⟨task, hmem, hid⟩ := (drain_fst_iff id order).mp (hall.2 hscheduled hwas)
        rcases State.mem_instances.mp hinst with hinst | ⟨h, hheld, rfl⟩
        · exact ((htasks inst).mp hinst).2
        · exact hid ▸ (hs.recorded.distinct.held_ne (held ▸ hheld) (perm.mem_iff.mp hmem)).symm

/-- The task in hand is submitted. -/
theorem submitted (hs : Tracked s) (hr : Recorded t) (hlive : s.terminated = false) {now : Int}
    (tasks : t.tasks = s.tasks)
    (had : s.loop.held = some { task, now, submitted := false })
    (held : t.loop.held = if task.Periodic then some { task, now, submitted := true } else none)
    (log : t.log = s.log ++ [.submitted task now]) : Tracked t := by
  have hmem := State.held_mem_instances had
  refine hs.of_log hr hlive (.inr ⟨_, log, by simp, by simp⟩) ?_ ?_
  · intro inst hinst
    refine ⟨inst, ?_, rfl, rfl⟩
    rcases State.mem_instances.mp hinst with hinst | ⟨h, hheld, rfl⟩
    · exact State.task_mem_instances (tasks ▸ hinst)
    · rw [held] at hheld
      split at hheld
      next => exact Option.some.inj hheld ▸ hmem
      next => exact absurd hheld (by simp)
  · intro _ inst hinst hwas
    refine ⟨inst, ?_, rfl⟩
    rcases State.mem_instances.mp hinst with hinst | ⟨h, hheld, rfl⟩
    · exact State.task_mem_instances (tasks ▸ hinst)
    · have hperiodic := hs.held_periodic hheld hwas
      obtain rfl := Option.some.inj (had.symm.trans hheld)
      have hheld' : t.loop.held = some { task, now, submitted := true } :=
        held.trans (if_pos hperiodic)
      have hmem' := State.held_mem_instances hheld'
      exact hmem'

/-- The task in hand is pushed again. -/
theorem pushedBack (hs : Tracked s) (hr : Recorded t) (hlive : s.terminated = false) {now : Int}
    (had : s.loop.held = some { task, now, submitted := true })
    (tasks : t.tasks = s.tasks ++ [{ task with scheduledTime := afterMillis now task.interval }])
    (held : t.loop.held = none) (log : t.log = s.log) : Tracked t := by
  have hmem := State.held_mem_instances had
  refine hs.of_log hr hlive (.inl log) ?_ ?_
  · intro inst hinst
    rw [State.mem_instances, tasks, held] at hinst
    rcases hinst with hinst | ⟨h, hheld, _⟩
    · rcases List.mem_append.mp hinst with hinst | hinst
      · exact ⟨inst, State.task_mem_instances hinst, rfl, rfl⟩
      · obtain rfl := List.mem_singleton.mp hinst
        exact ⟨task, hmem, rfl, rfl⟩
    · exact absurd hheld (by simp)
  · intro _ inst hinst _
    rcases State.mem_instances.mp hinst with hinst | ⟨h, hheld, rfl⟩
    · exact ⟨inst, State.task_mem_instances (tasks ▸ List.mem_append_left _ hinst), rfl⟩
    · obtain rfl := Option.some.inj (had.symm.trans hheld)
      exact ⟨{ task with scheduledTime := afterMillis now task.interval }, State.task_mem_instances
        (tasks ▸ List.mem_append_right _ (List.mem_singleton_self _)), rfl⟩

theorem change (hs : Tracked s) (hlive : s.terminated = false) (hchange : Change s t c) :
    Tracked t := by
  have hr := hs.recorded.change hchange
  cases hchange with
  | quiet tasks held nextId log =>
    have hsame : t.instances = s.instances := by unfold State.instances; rw [tasks, held]
    exact hs.of_log hr hlive (.inl log) (hsame ▸ fun inst h => ⟨inst, h, rfl, rfl⟩)
      (hsame ▸ fun _ inst h _ => ⟨inst, h, rfl⟩)
  | scheduled task fresh tasks held nextId log => exact hs.scheduled hr hlive fresh tasks held log
  | cancelled id order perm tasks held nextId log =>
    exact hs.cancelled hr hlive perm tasks held log
  | taken task now top get least due tasks free held nextId log =>
    have hperm : t.instances.Perm s.instances := by
      unfold State.instances
      rw [tasks, held, free]
      exact (perm_eraseIdx get).trans (List.append_nil _ ▸ .refl _)
    exact hs.of_log hr hlive (.inr ⟨_, log, by simp, by simp⟩)
      (fun inst h => ⟨inst, hperm.mem_iff.mp h, rfl, rfl⟩)
      (fun _ inst h _ => ⟨inst, hperm.mem_iff.mpr h, rfl⟩)
  | submitted task now tasks had held nextId log =>
    exact hs.submitted hr hlive tasks had held log
  | pushedBack task now had tasks held nextId log =>
    exact hs.pushedBack hr hlive had tasks held log
  | threw task now had tasks held nextId log finished =>
    refine hs.of_log hr hlive (.inl log) ?_ fun hlive' => absurd finished (by simp [hlive'])
    intro inst hinst
    refine ⟨inst, ?_, rfl, rfl⟩
    rcases State.mem_instances.mp hinst with hinst | ⟨h, hheld, _⟩
    · exact State.task_mem_instances (tasks ▸ hinst)
    · exact absurd (held.symm.trans hheld) (by simp)

end Tracked

variable [DecidableEq φ]

/-- **Cancelling.** In every run, every `cancel` of a periodic task that is not cancelled yet
returns true and no task is taken after a `cancel` of it, exactly if no `cancel` falls between the
pop of its task and the push. -/
theorem cancel_obeyed_iff {start : Int} {as : List (Action m φ)} {s : State m φ}
    (run : Run step free (new m φ start) as s) :
    EachAfter Obeyed s.log ↔ Run step SparesHeld (new m φ start) as s := by
  refine Run.exact_iff (I := Tracked) (P := fun s => EachAfter Obeyed s.log)
    (fun _ _ _ h _ hstep => h.change (step_live hstep) (step_change hstep)) ?_ run
    (tracked_new start) eachAfter_nil
  intro s a t hs hstep
  rw [hs.obeyed_iff (step_live hstep) (step_change hstep)]
  unfold SparesHeld
  cases a.cancels with
  | none => simp
  | some id => simp

/-- A task for every millisecond that was submitted at 1.5 ms and pushed again is cancelled. -/
theorem cancel_obeyed_pushed :
    ∃ s : State 1 Unit, Run step free (new 1 Unit 0)
      [.start 0, .client 0, .schedulePeriodic 0 () 0 1 "ticker" {}, .loop, .loop, .loop,
        .read 1500000 0, .submitReturns, .loop, .cancel 0 1 [⟨(), "ticker", {}, 2500000, 1, 1⟩]] s ∧
      s.log = [.scheduled ⟨(), "ticker", {}, 1000000, 1, 1⟩,
        .taken ⟨(), "ticker", {}, 1000000, 1, 1⟩ 1500000,
        .submitted ⟨(), "ticker", {}, 1000000, 1, 1⟩ 1500000, .cancelled 1 true] ∧
      EachAfter Obeyed s.log := by
  have hrun : Run step SparesHeld (new 1 Unit 0)
      [.start 0, .client 0, .schedulePeriodic 0 () 0 1 "ticker" {}, .loop, .loop, .loop,
        .read 1500000 0, .submitReturns, .loop,
        .cancel 0 1 [⟨(), "ticker", {}, 2500000, 1, 1⟩]] _ := Run.of_isSome (by decide)
  exact ⟨_, hrun.toFree, by decide, (cancel_obeyed_iff hrun.toFree).mpr hrun⟩

/-- The same task, cancelled while it is being submitted: `cancel` returns false, the task is pushed
again, and it is taken once more at 2.5 ms. -/
theorem cancel_missed :
    ∃ s : State 1 Unit, Run step free (new 1 Unit 0)
      [.start 0, .client 0, .schedulePeriodic 0 () 0 1 "ticker" {}, .loop, .loop, .loop,
        .read 1500000 0, .cancel 0 1 [], .submitReturns, .loop, .loop, .loop, .loop,
        .read 2500000 0, .submitReturns] s ∧
      s.log = [.scheduled ⟨(), "ticker", {}, 1000000, 1, 1⟩,
        .taken ⟨(), "ticker", {}, 1000000, 1, 1⟩ 1500000, .cancelled 1 false,
        .submitted ⟨(), "ticker", {}, 1000000, 1, 1⟩ 1500000,
        .taken ⟨(), "ticker", {}, 2500000, 1, 1⟩ 2500000,
        .submitted ⟨(), "ticker", {}, 2500000, 1, 1⟩ 2500000] ∧
      ¬ EachAfter Obeyed s.log := by
  refine ⟨_, Run.of_isSome (by decide), by decide, ?_⟩
  generalize hlog : State.log _ = l
  obtain rfl : l = [.scheduled ⟨(), "ticker", {}, 1000000, 1, 1⟩,
      .taken ⟨(), "ticker", {}, 1000000, 1, 1⟩ 1500000, .cancelled 1 false,
      .submitted ⟨(), "ticker", {}, 1000000, 1, 1⟩ 1500000,
      .taken ⟨(), "ticker", {}, 2500000, 1, 1⟩ 2500000,
      .submitted ⟨(), "ticker", {}, 2500000, 1, 1⟩ 2500000] := hlog.symm.trans (by decide)
  intro hobeyed
  -- The `cancel` came after the task was scheduled, and for the first time.
  have hfound := hobeyed [.scheduled ⟨(), "ticker", {}, 1000000, 1, 1⟩,
    .taken ⟨(), "ticker", {}, 1000000, 1, 1⟩ 1500000] (.cancelled 1 false) _ rfl
  refine absurd (hfound ⟨_, .head _, rfl, by decide⟩ ?_) (by simp)
  rintro ⟨before, e, after, hsplit, ⟨found, rfl⟩, _⟩
  have hmem : Entry.cancelled 1 found ∈ before ++ .cancelled 1 found :: after := by simp
  rw [← hsplit] at hmem
  simp at hmem

end TaskScheduler
end NexusTask
