import NexusTask.Monitor.Peak

/-!
# `get_metrics` beside the threads it observes

`get_metrics` loads one counter after the other, and any number of steps of other threads come
between two of its loads, so a snapshot need not show any one state of the counters. What it shows
is followed through `view`: the values loaded so far, and for the rest the values there are now.
A load does not change it.

`record_submission`, `record_retry`, `record_cancellation` and `record_queue_wait` are one
`fetch_add` each and are one step here.
-/

set_option autoImplicit false

namespace NexusTask
namespace Monitor

open Transition

/-- The value of a counter. -/
def Counter.read (m : Metrics) : Counter → Nat
  | .tasksSubmitted => m.tasksSubmitted
  | .tasksCompleted => m.tasksCompleted
  | .tasksFailed => m.tasksFailed
  | .tasksRetried => m.tasksRetried
  | .tasksCancelled => m.tasksCancelled
  | .totalExecutionTime => m.totalExecutionTime
  | .maxExecutionTime => m.maxExecutionTime
  | .minExecutionTime => m.minExecutionTime
  | .queueWaitTime => m.queueWaitTime
  | .inflightTasks => m.inflightTasks
  | .peakInflight => m.peakInflight

/-- A load of `get_metrics`. -/
def Counter.load (m snapshot : Metrics) : Counter → Metrics
  | .tasksSubmitted => { snapshot with tasksSubmitted := m.tasksSubmitted }
  | .tasksCompleted => { snapshot with tasksCompleted := m.tasksCompleted }
  | .tasksFailed => { snapshot with tasksFailed := m.tasksFailed }
  | .tasksRetried => { snapshot with tasksRetried := m.tasksRetried }
  | .tasksCancelled => { snapshot with tasksCancelled := m.tasksCancelled }
  | .totalExecutionTime => { snapshot with totalExecutionTime := m.totalExecutionTime }
  | .maxExecutionTime => { snapshot with maxExecutionTime := m.maxExecutionTime }
  | .minExecutionTime => { snapshot with minExecutionTime := m.minExecutionTime }
  | .queueWaitTime => { snapshot with queueWaitTime := m.queueWaitTime }
  | .inflightTasks => { snapshot with inflightTasks := m.inflightTasks }
  | .peakInflight => { snapshot with peakInflight := m.peakInflight }

/-- The place of a counter in the order in which `get_metrics` loads them. -/
def Counter.place : Counter → Nat
  | .tasksSubmitted => 0
  | .tasksCompleted => 1
  | .tasksFailed => 2
  | .tasksRetried => 3
  | .tasksCancelled => 4
  | .totalExecutionTime => 5
  | .maxExecutionTime => 6
  | .minExecutionTime => 7
  | .queueWaitTime => 8
  | .inflightTasks => 9
  | .peakInflight => 10

theorem Counter.place_inj {c d : Counter} (h : c.place = d.place) : c = d := by
  cases c <;> cases d <;> first | rfl | exact absurd h (by simp [place])

theorem Counter.place_next {c d : Counter} (h : c.next = some d) : d.place = c.place + 1 := by
  cases c <;> simp only [next, Option.some.injEq] at h <;> first | subst h; rfl | exact absurd h (by simp)

theorem Counter.eq_last {c : Counter} (h : c.next = none) : c = .peakInflight := by
  cases c <;> first | rfl | exact absurd h (by simp [next])

theorem Counter.place_le (c : Counter) : c.place ≤ Counter.peakInflight.place := by
  cases c <;> simp [place]

theorem Counter.read_load (m snapshot : Metrics) (c d : Counter) :
    d.read (c.load m snapshot) = if d = c then d.read m else d.read snapshot := by
  cases c <;> cases d <;> rfl

/-- The calls that are one `fetch_add`. -/
inductive Single
  | recordSubmission
  | recordRetry
  | recordCancellation
  | recordQueueWait (time : Nat)
  deriving DecidableEq

def Single.apply (m : Metrics) : Single → Metrics
  | .recordSubmission => m.recordSubmission
  | .recordRetry => m.recordRetry
  | .recordCancellation => m.recordCancellation
  | .recordQueueWait time => m.recordQueueWait time

/-- The monitor and a thread that calls `get_metrics` again and again: the load that comes next, the
snapshot as far as it goes, and those returned. -/
structure Reader (ι : Type) where
  system : System ι := {}
  next : Option Counter := none
  snapshot : Metrics := {}
  taken : List Metrics := []

namespace Reader

inductive Action (ι : Type)
  | client (l : Label ι)
  | single (c : Single)
  | getMetrics
  | load

section
variable {ι : Type} [DecidableEq ι]

/-- One load of `get_metrics`, which returns after the last. -/
def loadNext (r : Reader ι) (c : Counter) : Reader ι :=
  match c.next with
  | some d => { r with next := some d, snapshot := c.load r.system.metrics r.snapshot }
  | none => { r with next := none, snapshot := {},
                     taken := r.taken ++ [c.load r.system.metrics r.snapshot] }

def step (r : Reader ι) : Action ι → Option (Reader ι)
  | .client l => (Monitor.step r.system l).map fun s => { r with system := s }
  | .single c => some { r with system := { r.system with metrics := c.apply r.system.metrics } }
  | .getMetrics =>
      if r.next = none then some { r with next := some .tasksSubmitted, snapshot := {} } else none
  | .load => r.next.map r.loadNext

/-- `reset` is not called. -/
def withoutReset (r : Reader ι) : Action ι → Prop
  | .client l => Monitor.withoutReset r.system l
  | _ => True

instance : ∀ (r : Reader ι) (a : Action ι), Decidable (withoutReset r a)
  | r, .client l => inferInstanceAs (Decidable (Monitor.withoutReset r.system l))
  | _, .single _ | _, .getMetrics | _, .load => .isTrue trivial

end

/-! ## What a snapshot will show -/

variable {ι : Type}

/-- The counter has been loaded. -/
def loaded (r : Reader ι) (c : Counter) : Bool := r.next.any fun d => decide (c.place < d.place)

/-- What has been loaded, and for the rest what there is now. -/
def view (r : Reader ι) (c : Counter) : Nat :=
  if r.loaded c then c.read r.snapshot else c.read r.system.metrics

theorem loaded_some {r : Reader ι} {c d : Counter} (h : r.next = some d) :
    r.loaded c = decide (c.place < d.place) := by simp [loaded, h]

theorem loaded_none {r : Reader ι} {c : Counter} (h : r.next = none) : r.loaded c = false := by
  simp [loaded, h]

/-- A load fixes what it finds. -/
theorem view_loadNext {r : Reader ι} {c d : Counter} (h : r.next = some c) (hnext : c.next = some d)
    (e : Counter) : (r.loadNext c).view e = r.view e := by
  have hplace := Counter.place_next hnext
  have hgo : r.loadNext c = { r with next := some d, snapshot := c.load r.system.metrics r.snapshot } := by
    simp only [loadNext, hnext]
  rw [hgo, view, view, loaded_some h, loaded_some rfl, Counter.read_load, hplace]
  by_cases hec : e = c
  · subst hec
    simp
  · have hne : e.place ≠ c.place := fun heq => hec (Counter.place_inj heq)
    by_cases hlt : e.place < c.place
    · rw [if_neg hec, decide_eq_true (by omega), decide_eq_true hlt]
    · rw [decide_eq_false (by omega), decide_eq_false hlt]
      simp

/-- The last load returns what was in view. -/
theorem read_last {r : Reader ι} (h : r.next = some .peakInflight) (e : Counter) :
    e.read (Counter.peakInflight.load r.system.metrics r.snapshot) = r.view e := by
  rw [Counter.read_load, view, loaded_some h]
  by_cases he : e = .peakInflight
  · subst he
    simp
  · have hne : e.place ≠ Counter.peakInflight.place := fun heq => he (Counter.place_inj heq)
    have hle := e.place_le
    rw [if_neg he, decide_eq_true (by omega)]
    simp

end Reader

/-! ## Counters that move one way -/

/-- The maximum and the peak have not gone down from the one to the other, nor the minimum up. -/
structure Later (f g : Counter → Nat) : Prop where
  max_le : f .maxExecutionTime ≤ g .maxExecutionTime
  le_min : g .minExecutionTime ≤ f .minExecutionTime
  peak_le : f .peakInflight ≤ g .peakInflight

theorem Later.refl (f : Counter → Nat) : Later f f := ⟨Nat.le_refl _, Nat.le_refl _, Nat.le_refl _⟩

theorem Later.trans {f g h : Counter → Nat} (hfg : Later f g) (hgh : Later g h) : Later f h :=
  ⟨Nat.le_trans hfg.max_le hgh.max_le, Nat.le_trans hgh.le_min hfg.le_min,
    Nat.le_trans hfg.peak_le hgh.peak_le⟩

theorem Later.of_eq {m m' : Metrics} (hmax : m'.maxExecutionTime = m.maxExecutionTime)
    (hmin : m'.minExecutionTime = m.minExecutionTime) (hpeak : m'.peakInflight = m.peakInflight) :
    Later (·.read m) (·.read m') :=
  ⟨Nat.le_of_eq hmax.symm, Nat.le_of_eq hmin, Nat.le_of_eq hpeak.symm⟩

/-- Where both have the same values fixed, what is in view moves as the rest does. -/
theorem Later.ite {f g h : Counter → Nat} {fixed : Counter → Bool} (hgh : Later g h) :
    Later (fun c => if fixed c then f c else g c) fun c => if fixed c then f c else h c := by
  refine ⟨?_, ?_, ?_⟩
  · split
    · exact Nat.le_refl _
    · exact hgh.max_le
  · split
    · exact Nat.le_refl _
    · exact hgh.le_min
  · split
    · exact Nat.le_refl _
    · exact hgh.peak_le

/-- What is fixed stays behind what moves on. -/
theorem Later.ite_le {f g h : Counter → Nat} {fixed : Counter → Bool}
    (hfg : Later (fun c => if fixed c then f c else g c) g) (hgh : Later g h) :
    Later (fun c => if fixed c then f c else h c) h := by
  have hfh := hfg.trans hgh
  refine ⟨?_, ?_, ?_⟩
  · have hmax := hfh.max_le
    split
    next hfixed => simpa [hfixed] using hmax
    next => exact Nat.le_refl _
  · have hmin := hfh.le_min
    split
    next hfixed => simpa [hfixed] using hmin
    next => exact Nat.le_refl _
  · have hpeak := hfh.peak_le
    split
    next hfixed => simpa [hfixed] using hpeak
    next => exact Nat.le_refl _

/-- A compare-exchange is only tried with a value beyond the one it expects. -/
def Frame.Raises : Frame → Prop
  | .peakExchange inflight peak => peak < inflight
  | .maxExchange time currentMax => currentMax < time
  | .minExchange time currentMin => time < currentMin
  | _ => True

theorem Frame.raises_peakLoop (inflight peak : Nat) : (peakLoop inflight peak).Raises := by
  unfold peakLoop
  split
  next h => exact h
  next => trivial

theorem Frame.raises_maxLoop (time currentMax : Nat) : (maxLoop time currentMax).Raises := by
  unfold maxLoop
  split
  next h => exact h
  next => trivial

theorem Frame.raises_minLoop (time currentMin : Nat) : (minLoop time currentMin).Raises := by
  unfold minLoop
  split
  next h => exact h
  next => trivial

/-- An operation leaves its thread at such a value, and moves the extrema and the peak one way. -/
theorem Frame.next_later {m m' : Metrics} {spurious : Bool} {frame frame' : Frame}
    (hraises : frame.Raises) (hreset : frame.inReset = false)
    (h : frame.next m spurious = some (m', frame')) :
    frame'.Raises ∧ Later (·.read m) (·.read m') := by
  cases frame with
  | idle => exact absurd h (by simp [next])
  | reset => exact absurd hreset (by simp [inReset])
  | startAdd | totalAdd | completedAdd | completionSub | failedAdd | failureSub =>
    obtain ⟨rfl, rfl⟩ := Prod.mk.inj (Option.some.inj h)
    exact ⟨trivial, .of_eq rfl rfl rfl⟩
  | peakLoad inflight =>
    obtain ⟨rfl, rfl⟩ := Prod.mk.inj (Option.some.inj h)
    exact ⟨raises_peakLoop .., .refl _⟩
  | maxLoad time =>
    obtain ⟨rfl, rfl⟩ := Prod.mk.inj (Option.some.inj h)
    exact ⟨raises_maxLoop .., .refl _⟩
  | minLoad time =>
    obtain ⟨rfl, rfl⟩ := Prod.mk.inj (Option.some.inj h)
    exact ⟨raises_minLoop .., .refl _⟩
  | peakExchange inflight peak =>
    simp only [next] at h
    split at h
    next hfound =>
      obtain ⟨rfl, rfl⟩ := Prod.mk.inj (Option.some.inj h)
      obtain ⟨rfl, _⟩ := hfound
      exact ⟨trivial, Nat.le_refl _, Nat.le_refl _, Nat.le_of_lt hraises⟩
    next =>
      obtain ⟨rfl, rfl⟩ := Prod.mk.inj (Option.some.inj h)
      exact ⟨raises_peakLoop .., .refl _⟩
  | maxExchange time currentMax =>
    simp only [next] at h
    split at h
    next hfound =>
      obtain ⟨rfl, rfl⟩ := Prod.mk.inj (Option.some.inj h)
      obtain ⟨rfl, _⟩ := hfound
      exact ⟨trivial, Nat.le_of_lt hraises, Nat.le_refl _, Nat.le_refl _⟩
    next =>
      obtain ⟨rfl, rfl⟩ := Prod.mk.inj (Option.some.inj h)
      exact ⟨raises_maxLoop .., .refl _⟩
  | minExchange time currentMin =>
    simp only [next] at h
    split at h
    next hfound =>
      obtain ⟨rfl, rfl⟩ := Prod.mk.inj (Option.some.inj h)
      obtain ⟨rfl, _⟩ := hfound
      exact ⟨trivial, Nat.le_refl _, Nat.le_of_lt hraises, Nat.le_refl _⟩
    next =>
      obtain ⟨rfl, rfl⟩ := Prod.mk.inj (Option.some.inj h)
      exact ⟨raises_minLoop .., .refl _⟩

/-! ## Runs -/

section
variable {ι : Type} [DecidableEq ι] [Fintype ι]

/-- Every thread is at such a value. -/
def Raising (s : System ι) : Prop := ∀ j, (s.frames j).Raises

omit [Fintype ι] in
theorem Raising.after {s s' : System ι} {l : Label ι} (h : Raising s)
    (hreset : ∀ j, (s.frames j).inReset = false) (hstep : step s l = some s') :
    Raising s' ∧ Later (·.read s.metrics) (·.read s'.metrics) := by
  cases l with
  | call i c =>
    have hcall : ∀ frame : Frame, frame.Raises → Raising (s.goto i frame) := fun frame hframe =>
      Threads.all_update Frame.Raises h hframe
    simp only [step] at hstep
    split at hstep
    · cases c with
      | recordStart | reset =>
        obtain rfl := Option.some.inj hstep
        exact ⟨hcall _ trivial, .refl _⟩
      | recordCompletion time =>
        dsimp only at hstep
        split at hstep
        · exact absurd hstep (by simp)
        · obtain rfl := Option.some.inj hstep
          refine ⟨hcall (if time > 0 then .totalAdd time else .completedAdd time) ?_, .refl _⟩
          split <;> trivial
      | recordFailure =>
        dsimp only at hstep
        split at hstep
        · exact absurd hstep (by simp)
        · obtain rfl := Option.some.inj hstep
          exact ⟨hcall .failedAdd trivial, .refl _⟩
    · exact absurd hstep (by simp)
  | step i spurious =>
    obtain ⟨⟨m', frame'⟩, hnext, rfl⟩ := Option.map_eq_some_iff.mp hstep
    obtain ⟨hraises, hlater⟩ := Frame.next_later (h i) (hreset i) hnext
    exact ⟨Threads.all_update Frame.Raises h hraises, hlater⟩

namespace Reader

/-- What is known in every state of a run without `reset`. -/
structure Coherent (r : Reader ι) : Prop where
  peaked : Peaked r.system
  raising : Raising r.system
  inflight_le : r.view .inflightTasks ≤ r.system.largest
  behind : Later r.view (·.read r.system.metrics)
  taken : ∀ m ∈ r.taken, Later (·.read m) r.view
  chain : r.taken.Pairwise fun m m' => Later (·.read m) (·.read m')

omit [DecidableEq ι] [Fintype ι] in
theorem view_none {r : Reader ι} (h : r.next = none) : r.view = (·.read r.system.metrics) := by
  funext c
  simp [view, loaded_none h]

omit [DecidableEq ι] in
theorem coherent_start : Coherent ({} : Reader ι) where
  peaked := peaked_start
  raising _ := trivial
  inflight_le := Nat.le_refl _
  behind := .refl _
  taken _ h := absurd h List.not_mem_nil
  chain := .nil

omit [DecidableEq ι] in
/-- The gauge and its peak are none of these calls' business. -/
theorem peaked_single {s : System ι} (h : Peaked s) (c : Single) :
    Peaked { s with metrics := c.apply s.metrics } := by
  cases c with
  | _ => exact { h with }

omit [DecidableEq ι] in
/-- A step of another thread moves what is still to be loaded. -/
theorem Coherent.moves {r : Reader ι} {s' : System ι} (h : Coherent r) (hpeaked : Peaked s')
    (hraising : Raising s') (hlargest : r.system.largest ≤ s'.largest)
    (hlater : Later (·.read r.system.metrics) (·.read s'.metrics)) :
    Coherent { r with system := s' } where
  peaked := hpeaked
  raising := hraising
  inflight_le := by
    have hle := h.inflight_le
    have hnow : s'.metrics.inflightTasks ≤ s'.largest := hpeaked.inflight_le
    unfold view at hle ⊢
    show (if r.loaded _ then _ else _) ≤ _
    split
    next hloaded =>
      rw [if_pos hloaded] at hle
      exact Nat.le_trans hle hlargest
    next => exact hnow
  behind := h.behind.ite_le hlater
  taken m hm := (h.taken m hm).trans (.ite hlater)
  chain := h.chain

theorem coherent_step : Preserved step withoutReset fun r : Reader ι => Coherent r := by
  intro r a r' h hok hstep
  cases a with
  | client l =>
    obtain ⟨s', hs', rfl⟩ := Option.map_eq_some_iff.mp hstep
    obtain ⟨hraising, hlater⟩ := h.raising.after h.peaked.noReset hs'
    obtain ⟨i, frame, took⟩ := exists_took hs'
    refine h.moves (peaked_step _ _ _ h.peaked hok hs') hraising ?_ hlater
    rw [took.largest h.peaked.inflight_le]
    exact Nat.le_max_left ..
  | single c =>
    obtain rfl := Option.some.inj hstep
    refine h.moves (peaked_single h.peaked c) h.raising (Nat.le_refl _) ?_
    cases c with
    | _ => exact .of_eq rfl rfl rfl
  | getMetrics =>
    simp only [step] at hstep
    split at hstep
    next hnext =>
      obtain rfl := Option.some.inj hstep
      have hview : view { r with next := some .tasksSubmitted, snapshot := {} } = r.view := by
        rw [view_none hnext]
        funext c
        simp [view, loaded, Counter.place]
      exact ⟨h.peaked, h.raising, hview ▸ h.inflight_le, hview ▸ h.behind, hview ▸ h.taken,
        h.chain⟩
    next => exact absurd hstep (by simp)
  | load =>
    obtain ⟨c, hc, rfl⟩ := Option.map_eq_some_iff.mp hstep
    cases hnext : c.next with
    | some d =>
      have hview : (r.loadNext c).view = r.view := funext (view_loadNext hc hnext)
      have hsystem : (r.loadNext c).system = r.system := by simp only [loadNext, hnext]
      have htaken : (r.loadNext c).taken = r.taken := by simp only [loadNext, hnext]
      exact ⟨hsystem ▸ h.peaked, hsystem ▸ h.raising, hsystem ▸ hview ▸ h.inflight_le,
        hsystem ▸ hview ▸ h.behind, htaken ▸ hview ▸ h.taken, htaken ▸ h.chain⟩
    | none =>
      obtain rfl := Counter.eq_last hnext
      have hread : (·.read (Counter.peakInflight.load r.system.metrics r.snapshot)) = r.view :=
        funext (read_last hc)
      exact {
        peaked := h.peaked
        raising := h.raising
        inflight_le := h.peaked.inflight_le
        behind := .refl _
        taken := by
          intro m hm
          rcases List.mem_append.mp hm with hold | hnew
          · exact (h.taken m hold).trans h.behind
          · rw [List.mem_singleton.mp hnew, hread]
            exact h.behind
        chain := by
          refine List.pairwise_append.mpr ⟨h.chain, List.pairwise_singleton .., ?_⟩
          intro m hm m' hm'
          rw [List.mem_singleton.mp hm', hread]
          exact h.taken m hm }

/-! ## Where the values come from -/

/-- At some moment since the call of `get_metrics` the counter had the value in view. -/
def Seen (as : List (Action ι)) (r : Reader ι) (c : Counter) : Prop :=
  ∃ before after u, as = before ++ after ∧ Run step withoutReset {} before u ∧
    Run step (fun r a => withoutReset r a ∧ r.next ≠ none) u after r ∧
    c.read u.system.metrics = r.view c

omit [Fintype ι] in
/-- A counter that is loaded after a step was loaded before it, or is what was in view. -/
theorem view_of_loaded {r r' : Reader ι} {a : Action ι} (hstep : step r a = some r') {c : Counter}
    (hloaded : r'.loaded c = true) : r.next ≠ none ∧ r'.view c = r.view c := by
  cases a with
  | client l =>
    obtain ⟨s', _, rfl⟩ := Option.map_eq_some_iff.mp hstep
    refine ⟨fun hnone => ?_, ?_⟩
    · exact absurd ((loaded_none hnone).symm.trans hloaded) (by simp)
    · have hbefore : r.loaded c = true := hloaded
      simp only [view, hloaded, hbefore, if_true]
  | single x =>
    obtain rfl := Option.some.inj hstep
    refine ⟨fun hnone => ?_, ?_⟩
    · exact absurd ((loaded_none hnone).symm.trans hloaded) (by simp)
    · have hbefore : r.loaded c = true := hloaded
      simp only [view, hloaded, hbefore, if_true]
  | getMetrics =>
    simp only [step] at hstep
    split at hstep
    · obtain rfl := Option.some.inj hstep
      exact absurd hloaded (by simp [loaded, Counter.place])
    · exact absurd hstep (by simp)
  | load =>
    obtain ⟨d, hd, rfl⟩ := Option.map_eq_some_iff.mp hstep
    refine ⟨by rw [hd]; exact Option.some_ne_none d, ?_⟩
    cases hnext : d.next with
    | some e => exact view_loadNext hd hnext c
    | none => exact absurd hloaded (by simp [loaded, loadNext, hnext])

omit [Fintype ι] in
theorem seen_of_run {as : List (Action ι)} {r : Reader ι} (run : Run step withoutReset {} as r)
    (c : Counter) (h : r.next ≠ none ∨ r.loaded c = true) : Seen as r c := by
  induction run with
  | nil => exact absurd h (by simp [loaded])
  | @snoc as t u a run meets next ih =>
    by_cases hloaded : u.loaded c = true
    · obtain ⟨hcalled, hview⟩ := view_of_loaded next hloaded
      obtain ⟨before, after, v, rfl, hbefore, hafter, hvalue⟩ := ih (.inl hcalled)
      exact ⟨before, after ++ [a], v, (List.append_assoc ..), hbefore,
        .snoc hafter ⟨meets, hcalled⟩ next, hview ▸ hvalue⟩
    · refine ⟨as ++ [a], [], u, (List.append_nil _).symm, .snoc run meets next, .nil, ?_⟩
      simp [view, hloaded]

/-- **What a snapshot shows.** In every run without `reset`, of any number of threads: each value is
one its counter had during the call; the maximum and the peak are no less, and the minimum no more,
than in any earlier snapshot; and the peak covers the gauge, or a `record_start` in progress is
about to see to it. -/
theorem snapshot_coherent {as : List (Action ι)} {r r' : Reader ι}
    (run : Run step withoutReset {} as r) (hlast : r.next = some .peakInflight)
    (hstep : step r .load = some r') : ∃ m, r'.taken = r.taken ++ [m] ∧
      (∀ c : Counter, ∃ before after u, as = before ++ after ∧ Run step withoutReset {} before u ∧
        Run step (fun r a => withoutReset r a ∧ r.next ≠ none) u after r ∧
        c.read u.system.metrics = c.read m) ∧
      (∀ m' ∈ r.taken, Later (·.read m') (·.read m)) ∧
      (m.inflightTasks ≤ m.peakInflight ∨ Announced r.system m.inflightTasks) := by
  have h : Coherent r := run.invariant coherent_step coherent_start
  have hread := read_last hlast
  obtain ⟨c, hc, rfl⟩ := Option.map_eq_some_iff.mp hstep
  obtain rfl := Option.some.inj (hc.symm.trans hlast)
  refine ⟨_, rfl, fun c => ?_, fun m' hm' => ?_, ?_⟩
  · rw [hread c]
    exact seen_of_run run c (.inl (by rw [hlast]; exact Option.some_ne_none _))
  · rw [funext hread]
    exact h.taken m' hm'
  · have hinflight := h.inflight_le
    rw [← hread .inflightTasks] at hinflight
    rcases h.peaked.published with hdone | ⟨j, count, hj, hle⟩
    · exact .inl (Nat.le_trans hinflight hdone)
    · exact .inr ⟨j, count, hj, Nat.le_trans hinflight hle⟩

end Reader
end

/-- An execution starts after the first load and has not published its count at the last. -/
def snapped : List (Reader.Action (Fin 1)) :=
  [.getMetrics, .load, .client (.call 0 .recordStart), .client (.step 0 false), .load, .load, .load,
   .load, .load, .load, .load, .load, .load]

theorem snapshot_coherent_snapped : ∃ r r' : Reader (Fin 1),
    Run Reader.step Reader.withoutReset {} snapped r ∧ Reader.step r .load = some r' ∧
      ∃ m : Metrics, r'.taken = r.taken ++ [m] ∧
        (m.inflightTasks ≤ m.peakInflight ∨ Announced r.system m.inflightTasks) := by
  have hrun : Run Reader.step Reader.withoutReset ({} : Reader (Fin 1)) snapped _ :=
    Run.of_isSome (by decide +kernel)
  have hlast : (Reader.step ((exec Reader.step Reader.withoutReset ({} : Reader (Fin 1)) snapped).get
      (by decide +kernel)) .load).isSome = true := by decide +kernel
  obtain ⟨m, hm, _, _, hpeak⟩ :=
    Reader.snapshot_coherent hrun (by decide +kernel) (Option.some_get hlast).symm
  exact ⟨_, _, hrun, (Option.some_get hlast).symm, m, hm, hpeak⟩

end Monitor
end NexusTask
