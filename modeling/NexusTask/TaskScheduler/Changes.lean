import Mathlib.Data.List.Perm.Subperm
import NexusTask.TaskScheduler.Steps

/-!
# What a step does to the schedule

`Taken` lists the steps, each with what it needs and the state it leads to; it is where `step` is
unfolded. `Change` says once what a step can do to the heap, to the copy the loop has in hand, and
to the history; it is all the results on the schedule use of the steps. An instance of a task is on
the heap or in the loop's hand, and no two instances have one id.
-/

set_option autoImplicit false

namespace NexusTask
namespace TaskScheduler

open Transition

variable {m : Nat} {φ : Type}

/-- The id a step cancels. -/
def Action.cancels : Action m φ → Option TaskId
  | .cancel _ id _ => some id
  | _ => none

/-- When the task that a call schedules is due. -/
def Action.due : Action m φ → Option Int
  | .scheduleAt _ _ time _ _ => some time
  | .scheduleAfter _ _ reading delay _ _ => some (afterMillis reading delay)
  | .schedulePeriodic _ _ now interval _ _ => some (afterMillis now interval)
  | _ => none

/-- The steps from `s`. The next step of the loop, where it depends on the state alone, is left as
it is. -/
inductive Taken (s : State m φ) : Action m φ → State m φ → Prop
  /-- A call that schedules pushes one task, with an id that is not in use. -/
  | schedules {a} (c : Fin m) (task : ScheduledTask φ) (clock : Int) (free : s.free c)
      (due : a.due = some task.scheduledTime) (fresh : s.nextId ≤ task.id)
      (after : s.clock ≤ clock) : Taken s a ({ s with clock }.push task)
  | cancels (c : Fin m) (id : TaskId) (order : List (ScheduledTask φ)) (free : s.free c)
      (perm : order.Perm s.tasks) (sorted : order.Pairwise ScheduledTask.NotAfter) :
      Taken s (.cancel c id order) (s.cancel id order)
  | starts (c : Fin m) (idle : s.clients c = .idle) (stopped : s.running = false) :
      Taken s (.start c) ({ s with running := true }.setClient c .spawning)
  | startsNot (c : Fin m) (idle : s.clients c = .idle) (running : s.running = true) :
      Taken s (.start c) s
  | stops (c : Fin m) (idle : s.clients c = .idle) (running : s.running = true) :
      Taken s (.stop c) ({ s with running := false }.setClient c .notifying)
  | stopsNot (c : Fin m) (idle : s.clients c = .idle) (stopped : s.running = false) :
      Taken s (.stop c) s
  | leaves (c : Fin m) (idle : s.clients c = .idle) : Taken s (.leave c) (s.setClient c .gone)
  | spawns (c : Fin m) (spawning : s.clients c = .spawning) (absent : s.loop = .absent) :
      Taken s (.client c) ({ s with loop := .testRunning }.setClient c .idle)
  | spawnsTwice (c : Fin m) (spawning : s.clients c = .spawning) (present : s.loop ≠ .absent) :
      Taken s (.client c) { s with terminated := true }
  | notifies (c : Fin m) (notifying : s.clients c = .notifying) :
      Taken s (.client c) (s.notify.setClient c .joining)
  | joins (c : Fin m) (joining : s.clients c = .joining) (left : s.loop = .left) :
      Taken s (.client c) ({ s with loop := .absent }.setClient c .idle)
  | joinsNot (c : Fin m) (joining : s.clients c = .joining) (absent : s.loop = .absent) :
      Taken s (.client c) (s.setClient c .idle)
  | ticks (now : Int) (after : s.clock ≤ now) : Taken s (.tick now) { s with clock := now }
  | loops {t} (next : s.loopStep = some t) : Taken s .loop t
  | reads (now : Int) (top : Nat) (task : ScheduledTask φ) (loop : s.loop = .readClock)
      (get : s.tasks[top]? = some task) (after : s.clock ≤ now)
      (least : ∀ other ∈ s.tasks, task.NotAfter other) :
      Taken s (.read now top) (s.look now top task)
  | submitReturns (task : ScheduledTask φ) (now : Int) (loop : s.loop = .submitting task now) :
      Taken s .submitReturns {
        s with loop := if task.Periodic then .relock task now else .testRunning,
               log := s.log ++ [.submitted task now] }
  | submitThrows (task : ScheduledTask φ) (now : Int) (loop : s.loop = .submitting task now) :
      Taken s .submitThrows { s with loop := .threw, terminated := true }
  | wakes : Taken s .wake s.notify
  | timesOut (deadline : Int) (loop : s.loop = .timedWaiting deadline)
      (past : deadline ≤ s.clock) : Taken s .timeout { s with loop := .testRunning }

/-- What a step does to the schedule, with the id it cancels. -/
inductive Change (s t : State m φ) : Option TaskId → Prop
  | quiet (tasks : t.tasks = s.tasks) (held : t.loop.held = s.loop.held)
      (nextId : t.nextId = s.nextId) (log : t.log = s.log) : Change s t none
  /-- A new task gets an id that is not in use. -/
  | scheduled (task : ScheduledTask φ) (fresh : s.nextId ≤ task.id)
      (tasks : t.tasks = s.tasks ++ [task]) (held : t.loop.held = s.loop.held)
      (nextId : t.nextId = task.id + 1) (log : t.log = s.log ++ [.scheduled task]) :
      Change s t none
  | cancelled (id : TaskId) (order : List (ScheduledTask φ)) (perm : order.Perm s.tasks)
      (tasks : t.tasks = (drain id order).2) (held : t.loop.held = s.loop.held)
      (nextId : t.nextId = s.nextId) (log : t.log = s.log ++ [.cancelled id (drain id order).1]) :
      Change s t (some id)
  /-- The task on top is due. -/
  | taken (task : ScheduledTask φ) (now : Int) (top : Nat) (get : s.tasks[top]? = some task)
      (least : ∀ other ∈ s.tasks, task.NotAfter other) (due : task.scheduledTime ≤ now)
      (tasks : t.tasks = s.tasks.eraseIdx top) (free : s.loop.held = none)
      (held : t.loop.held = some { task, now, submitted := false })
      (nextId : t.nextId = s.nextId) (log : t.log = s.log ++ [.taken task now]) : Change s t none
  | submitted (task : ScheduledTask φ) (now : Int) (tasks : t.tasks = s.tasks)
      (had : s.loop.held = some { task, now, submitted := false })
      (held : t.loop.held = if task.Periodic then some { task, now, submitted := true } else none)
      (nextId : t.nextId = s.nextId) (log : t.log = s.log ++ [.submitted task now]) :
      Change s t none
  | pushedBack (task : ScheduledTask φ) (now : Int)
      (had : s.loop.held = some { task, now, submitted := true })
      (tasks : t.tasks = s.tasks ++ [{ task with scheduledTime := afterMillis now task.interval }])
      (held : t.loop.held = none) (nextId : t.nextId = s.nextId) (log : t.log = s.log) :
      Change s t none
  /-- The program is over. -/
  | threw (task : ScheduledTask φ) (now : Int)
      (had : s.loop.held = some { task, now, submitted := false }) (tasks : t.tasks = s.tasks)
      (held : t.loop.held = none) (nextId : t.nextId = s.nextId) (log : t.log = s.log)
      (finished : t.terminated = true) : Change s t none

section Steps

variable {s t : State m φ}

theorem State.le_label (s : State m φ) (title name : String) :
    s.nextId ≤ (s.label title name).2 := by
  unfold State.label
  split
  · exact Nat.le_succ _
  · exact Nat.le_refl _

theorem loopStep_change (h : s.loopStep = some t) : Change s t none := by
  unfold State.loopStep at h
  cases hloop : s.loop with
  | relock task now =>
    rw [hloop] at h
    exact Option.some.inj h ▸ .pushedBack task now (hloop ▸ rfl) rfl rfl rfl rfl
  | absent | waiting | readClock | submitting _ _ | timedWaiting _ | left | threw =>
    rw [hloop] at h
    exact absurd h (by simp)
  | testRunning | testEmpty | testWait | testTimedWait _ =>
    rw [hloop] at h
    refine Option.some.inj h ▸ .quiet rfl ?_ rfl rfl
    rw [hloop]
    dsimp only
    split <;> rfl
  | lock | block | woken | timedBlock _ | timedWoken _ =>
    rw [hloop] at h
    exact Option.some.inj h ▸ .quiet rfl (hloop ▸ rfl) rfl rfl

theorem clientStep_taken {c : Fin m} (h : s.clientStep c = some t) : Taken s (.client c) t := by
  unfold State.clientStep at h
  split at h
  next => exact absurd h (by simp)
  next => exact absurd h (by simp)
  next hc =>
    split at h
    next hloop => exact Option.some.inj h ▸ .spawns c hc hloop
    next hloop => exact Option.some.inj h ▸ .spawnsTwice c hc hloop
  next hc => exact Option.some.inj h ▸ .notifies c hc
  next hc =>
    split at h
    next hloop => exact Option.some.inj h ▸ .joins c hc hloop
    next hloop => exact Option.some.inj h ▸ .joinsNot c hc hloop
    next => exact absurd h (by simp)

variable [DecidableEq φ] {a : Action m φ}

/-- The program is not over, and the step is one of these. -/
theorem step_taken (h : step s a = some t) : s.terminated = false ∧ Taken s a t := by
  unfold step at h
  split at h
  next => exact absurd h (by simp)
  next hlive =>
    refine ⟨Bool.eq_false_iff.mpr hlive, ?_⟩
    cases a with
    | scheduleAt c func time name options =>
      dsimp only at h
      split at h
      next hfree =>
        exact Option.some.inj h ▸ .schedules c _ s.clock hfree rfl (s.le_label _ _) (le_refl _)
      next => exact absurd h (by simp)
    | scheduleAfter c func reading delay name options =>
      dsimp only at h
      split at h
      next hok =>
        exact Option.some.inj h ▸ .schedules c _ s.clock hok.1 rfl (s.le_label _ _) (le_refl _)
      next => exact absurd h (by simp)
    | schedulePeriodic c func now interval name options =>
      dsimp only at h
      split at h
      next hok => exact Option.some.inj h ▸ .schedules c _ now hok.1 rfl (s.le_label _ _) hok.2
      next => exact absurd h (by simp)
    | cancel c id order =>
      dsimp only at h
      split at h
      next hok => exact Option.some.inj h ▸ .cancels c id order hok.1 hok.2.1 hok.2.2
      next => exact absurd h (by simp)
    | start c =>
      dsimp only at h
      split at h
      next hc =>
        refine Option.some.inj h ▸ ?_
        split
        next hrunning => exact .startsNot c hc hrunning
        next hstopped => exact .starts c hc (Bool.eq_false_iff.mpr hstopped)
      next => exact absurd h (by simp)
    | stop c =>
      dsimp only at h
      split at h
      next hc =>
        refine Option.some.inj h ▸ ?_
        split
        next hrunning => exact .stops c hc hrunning
        next hstopped => exact .stopsNot c hc (Bool.eq_false_iff.mpr hstopped)
      next => exact absurd h (by simp)
    | leave c =>
      dsimp only at h
      split at h
      next hc => exact Option.some.inj h ▸ .leaves c hc
      next => exact absurd h (by simp)
    | client c => exact clientStep_taken h
    | tick now =>
      dsimp only at h
      split at h
      next hafter => exact Option.some.inj h ▸ .ticks now hafter
      next => exact absurd h (by simp)
    | loop => exact .loops h
    | read now top =>
      dsimp only at h
      split at h
      next task hloop htop =>
        split at h
        next hok => exact Option.some.inj h ▸ .reads now top task hloop htop hok.1 hok.2
        next => exact absurd h (by simp)
      next => exact absurd h (by simp)
    | submitReturns =>
      dsimp only at h
      split at h
      next task now hloop => exact Option.some.inj h ▸ .submitReturns task now hloop
      next => exact absurd h (by simp)
    | submitThrows =>
      dsimp only at h
      split at h
      next task now hloop => exact Option.some.inj h ▸ .submitThrows task now hloop
      next => exact absurd h (by simp)
    | wake => exact Option.some.inj h ▸ .wakes
    | timeout =>
      dsimp only at h
      split at h
      next deadline hloop =>
        split at h
        next hpast => exact Option.some.inj h ▸ .timesOut deadline hloop hpast
        next => exact absurd h (by simp)
      next => exact absurd h (by simp)

theorem step_live (h : step s a = some t) : s.terminated = false := (step_taken h).1

/-- A call that schedules pushes one task. -/
theorem step_due {time : Int} (h : step s a = some t) (hdue : a.due = some time) :
    ∃ c task clock, s.free c ∧ t = { s with clock }.push task ∧ task.scheduledTime = time := by
  cases (step_taken h).2 with
  | schedules c task clock free due fresh after =>
    exact ⟨c, task, clock, free, rfl, Option.some.inj (due.symm.trans hdue)⟩
  | _ => exact absurd hdue (by simp [Action.due])

omit [DecidableEq φ] in
/-- A call that schedules cancels nothing. -/
theorem Action.cancels_of_due {time : Int} (h : a.due = some time) : a.cancels = none := by
  cases a with
  | cancel => exact absurd h (by simp [due])
  | _ => rfl

/-- **Every step makes one of these changes.** -/
theorem step_change (h : step s a = some t) : Change s t a.cancels := by
  cases (step_taken h).2 with
  | schedules c task clock free due fresh after =>
    rw [Action.cancels_of_due due]
    exact .scheduled task fresh rfl (LoopPc.held_notified _) rfl rfl
  | cancels c id order free perm sorted => exact .cancelled id order perm rfl rfl rfl rfl
  | starts | startsNot | stops | stopsNot | leaves | spawnsTwice | joinsNot | ticks =>
    exact .quiet rfl rfl rfl rfl
  | spawns c spawning absent => exact .quiet rfl (absent ▸ rfl) rfl rfl
  | joins c joining left => exact .quiet rfl (left ▸ rfl) rfl rfl
  | notifies | wakes => exact .quiet rfl (LoopPc.held_notified _) rfl rfl
  | loops next => exact loopStep_change next
  | reads now top task loop get after least =>
    unfold State.look
    split
    next hdue => exact .taken task now top get least hdue rfl (loop ▸ rfl) rfl rfl rfl
    next => exact .quiet rfl (loop ▸ rfl) rfl rfl
  | submitReturns task now loop =>
    refine .submitted task now rfl (loop ▸ rfl) ?_ rfl rfl
    show LoopPc.held (if task.Periodic then _ else _) = _
    split <;> rfl
  | submitThrows task now loop => exact .threw task now (loop ▸ rfl) rfl rfl rfl rfl rfl
  | timesOut deadline loop past => exact .quiet rfl (loop ▸ rfl) rfl rfl

end Steps

/-! ## Instances -/

/-- The instances of tasks: those on the heap, and the one the loop has in hand. -/
def State.instances (s : State m φ) : List (ScheduledTask φ) :=
  s.tasks ++ s.loop.held.toList.map Held.task

namespace State

variable {s : State m φ} {task : ScheduledTask φ} {h : Held φ}

theorem mem_instances :
    task ∈ s.instances ↔ task ∈ s.tasks ∨ ∃ h, s.loop.held = some h ∧ h.task = task := by
  simp [instances]

/-- One more task on the heap. -/
theorem mem_instances_push {t : State m φ} {inst : ScheduledTask φ}
    (tasks : t.tasks = s.tasks ++ [task]) (held : t.loop.held = s.loop.held) :
    inst ∈ t.instances ↔ inst = task ∨ inst ∈ s.instances := by
  rw [mem_instances, mem_instances, tasks, held, List.mem_append, List.mem_singleton, or_assoc,
    or_left_comm]

theorem task_mem_instances (hmem : task ∈ s.tasks) : task ∈ s.instances :=
  mem_instances.mpr (.inl hmem)

theorem held_mem_instances (hheld : s.loop.held = some h) : h.task ∈ s.instances :=
  mem_instances.mpr (.inr ⟨h, hheld, rfl⟩)

end State

theorem drain_snd (id : TaskId) (order : List (ScheduledTask φ)) :
    (drain id order).2 = order.filter (·.id ≠ id) := by
  induction order with
  | nil => rfl
  | cons task rest ih =>
    unfold drain
    dsimp only
    by_cases hid : task.id = id
    · rw [if_pos hid, List.filter_cons_of_neg (by simp [hid])]
      exact ih
    · rw [if_neg hid, List.filter_cons_of_pos (by simp [hid])]
      exact congrArg (task :: ·) ih

theorem drain_fst_iff (id : TaskId) (order : List (ScheduledTask φ)) :
    (drain id order).1 = true ↔ ∃ task ∈ order, task.id = id := by
  induction order with
  | nil => simp [drain]
  | cons task rest ih =>
    unfold drain
    dsimp only
    by_cases hid : task.id = id
    · simp [hid]
    · simp [hid, ih]

theorem perm_eraseIdx {α : Type} {xs : List α} {i : Nat} {x : α} (h : xs[i]? = some x) :
    (xs.eraseIdx i ++ [x]).Perm xs := by
  obtain ⟨hi, rfl⟩ := List.getElem?_eq_some_iff.mp h
  exact (List.perm_append_singleton _ _).trans (List.getElem_cons_eraseIdx_perm hi)

/-- The id an entry is about was handed out. A `cancel` that finds nothing may be for any id. -/
def Entry.Below (n : TaskId) : Entry φ → Prop
  | .scheduled task | .taken task _ | .submitted task _ => task.id < n
  | .cancelled id found => found = true → id < n

theorem Entry.Below.mono {n n' : TaskId} (hle : n ≤ n') {e : Entry φ} (h : e.Below n) :
    e.Below n' := by
  cases e with
  | scheduled task => exact Nat.lt_of_lt_of_le h hle
  | cancelled id found => exact fun hfound => Nat.lt_of_lt_of_le (h hfound) hle
  | taken task now => exact Nat.lt_of_lt_of_le h hle
  | submitted task now => exact Nat.lt_of_lt_of_le h hle

/-- No two instances have one id, and every id in use was handed out. -/
structure Distinct (s : State m φ) : Prop where
  nodup : (s.instances.map ScheduledTask.id).Nodup
  below : ∀ task ∈ s.instances, task.id < s.nextId
  logged : ∀ e ∈ s.log, e.Below s.nextId
  /-- What the loop will push again is periodic. -/
  periodic : ∀ h, s.loop.held = some h → h.submitted = true → h.task.Periodic

theorem distinct_new (now : Int) : Distinct (new m φ now) where
  nodup := List.nodup_nil
  below _ h := absurd h List.not_mem_nil
  logged _ h := absurd h List.not_mem_nil
  periodic _ h := absurd h (by simp [new, LoopPc.held])

namespace Distinct

variable {s t : State m φ} {task : ScheduledTask φ} {h : Held φ}

/-- The copy in hand and a task on the heap have different ids. -/
theorem held_ne (hs : Distinct s) (hheld : s.loop.held = some h) (hmem : task ∈ s.tasks) :
    task.id ≠ h.task.id := by
  have hnodup := hs.nodup
  unfold State.instances at hnodup
  rw [hheld, List.map_append] at hnodup
  exact (List.nodup_append.mp hnodup).2.2 _ (List.mem_map_of_mem hmem) _
    (List.mem_singleton_self _)

/-- Instances are lost or stay. -/
theorem of_subperm (hs : Distinct s)
    (hids : (t.instances.map ScheduledTask.id).Subperm (s.instances.map ScheduledTask.id))
    (hnext : t.nextId = s.nextId) (hlog : ∀ e ∈ t.log, e.Below s.nextId)
    (hperiodic : ∀ h, t.loop.held = some h → h.submitted = true → h.task.Periodic) :
    Distinct t where
  nodup := by
    obtain ⟨ids, hperm, hsub⟩ := hids
    exact hperm.nodup_iff.mp (hs.nodup.sublist hsub)
  below task hmem := by
    obtain ⟨task', hmem', hid⟩ := List.mem_map.mp (hids.subset (List.mem_map_of_mem hmem))
    rw [hnext, ← hid]
    exact hs.below task' hmem'
  logged := by rwa [hnext]
  periodic := hperiodic

/-- A task with a new id. -/
theorem scheduled (hs : Distinct s) (fresh : s.nextId ≤ task.id)
    (tasks : t.tasks = s.tasks ++ [task]) (held : t.loop.held = s.loop.held)
    (nextId : t.nextId = task.id + 1) (log : t.log = s.log ++ [.scheduled task]) : Distinct t := by
  have hperm : t.instances.Perm (task :: s.instances) := by
    unfold State.instances
    rw [tasks, held, List.append_assoc, List.singleton_append]
    exact List.perm_middle
  have hle : s.nextId ≤ t.nextId := nextId ▸ Nat.le_succ_of_le fresh
  refine ⟨?_, ?_, ?_, held ▸ hs.periodic⟩
  · rw [(hperm.map _).nodup_iff, List.map_cons, List.nodup_cons]
    refine ⟨fun hmem => ?_, hs.nodup⟩
    obtain ⟨task', hmem', hid⟩ := List.mem_map.mp hmem
    exact absurd (hid ▸ hs.below task' hmem') (Nat.not_lt.mpr fresh)
  · intro task' hmem
    rcases List.mem_cons.mp (hperm.mem_iff.mp hmem) with rfl | hmem
    · exact nextId ▸ Nat.lt_succ_self _
    · exact Nat.lt_of_lt_of_le (hs.below task' hmem) hle
  · intro e he
    rw [log] at he
    rcases List.mem_append.mp he with he | he
    · exact (hs.logged e he).mono hle
    · obtain rfl := List.mem_singleton.mp he
      exact nextId ▸ Nat.lt_succ_self task.id

/-- The entry added is about an instance. -/
theorem logged_concat (hs : Distinct s) {e : Entry φ} (he : e.Below s.nextId) :
    ∀ e' ∈ s.log ++ [e], e'.Below s.nextId := by
  intro e' hmem
  rcases List.mem_append.mp hmem with hmem | hmem
  · exact hs.logged e' hmem
  · exact List.mem_singleton.mp hmem ▸ he

theorem change {c : Option TaskId} (hs : Distinct s) (hchange : Change s t c) : Distinct t := by
  cases hchange with
  | quiet tasks held nextId log =>
    refine hs.of_subperm ?_ nextId (log ▸ hs.logged) (held ▸ hs.periodic)
    unfold State.instances
    rw [tasks, held]
  | scheduled task fresh tasks held nextId log =>
    exact hs.scheduled fresh tasks held nextId log
  | cancelled id order perm tasks held nextId log =>
    refine hs.of_subperm ?_ nextId (log ▸ hs.logged_concat ?_) (held ▸ hs.periodic)
    · unfold State.instances
      rw [tasks, held, drain_snd]
      have hsub := (List.filter_sublist (l := order) (p := (·.id ≠ id))).append_right
        (s.loop.held.toList.map Held.task)
      exact (hsub.map _).subperm.trans ((perm.append_right _).map _).subperm
    · intro hfound
      obtain ⟨task, hmem, rfl⟩ := (drain_fst_iff id order).mp hfound
      exact hs.below task (State.task_mem_instances (perm.mem_iff.mp hmem))
  | taken task now top get least due tasks free held nextId log =>
    have hmem : task ∈ s.tasks := List.mem_of_getElem? get
    refine hs.of_subperm ?_ nextId (log ▸ hs.logged_concat ?_) ?_
    · unfold State.instances
      rw [tasks, held, free]
      show (List.map _ (_ ++ [task])).Subperm (List.map _ (s.tasks ++ []))
      rw [List.append_nil]
      exact ((perm_eraseIdx get).map _).subperm
    · exact hs.below task (State.task_mem_instances hmem)
    · intro h hheld hsubmitted
      obtain rfl := Option.some.inj (held.symm.trans hheld)
      exact absurd hsubmitted (by simp)
  | submitted task now tasks had held nextId log =>
    refine hs.of_subperm ?_ nextId (log ▸ hs.logged_concat ?_) ?_
    · unfold State.instances
      rw [tasks, held, had]
      split
      · exact .refl _
      · exact (((List.nil_sublist _).append_left s.tasks).map _).subperm
    · exact hs.below task (State.held_mem_instances had)
    · intro h hheld _
      rw [held] at hheld
      split at hheld
      next hperiodic => exact Option.some.inj hheld ▸ hperiodic
      next => exact absurd hheld (by simp)
  | pushedBack task now had tasks held nextId log =>
    refine hs.of_subperm ?_ nextId (log ▸ hs.logged) (by simp [held])
    unfold State.instances
    rw [tasks, held, had]
    simpa using List.Subperm.refl _
  | threw task now had tasks held nextId log finished =>
    refine hs.of_subperm ?_ nextId (log ▸ hs.logged) (by simp [held])
    unfold State.instances
    rw [tasks, held, had]
    exact (((List.nil_sublist _).append_left s.tasks).map _).subperm

end Distinct

end TaskScheduler
end NexusTask
