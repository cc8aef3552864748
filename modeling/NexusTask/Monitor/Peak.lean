import Mathlib.Order.Bounds.Defs
import NexusTask.Monitor.Steps

/-!
# The peak of the gauge

Without `reset`, `inflight_tasks` is the number of executions that are running, and `peak_inflight`
is the largest value it has had, up to the starts that have not compared their count with the peak
yet: the largest count has been published, or some thread is about to.
-/

set_option autoImplicit false

namespace NexusTask
namespace Monitor

open Transition

variable {ι : Type} [DecidableEq ι] {s s' : System ι} {l : Label ι} {i : ι} {frame : Frame}

/-! ## What the peak covers -/

theorem Frame.inStart_of_announces {frame : Frame} {count : Nat}
    (h : frame.announces = some count) : frame.inStart = true := by
  cases frame <;> first | rfl | exact absurd h (by simp [announces])

/-- The loop either tries to publish the count or has found it published. -/
theorem Frame.peakLoop_cases (count peak : Nat) :
    (Frame.peakLoop count peak).announces = some count ∨ count ≤ peak := by
  unfold peakLoop
  split
  · exact .inl rfl
  · exact .inr (by omega)

theorem Frame.announces_peakLoop {count count' peak : Nat}
    (h : (Frame.peakLoop count peak).announces = some count') : count' = count := by
  unfold peakLoop at h
  split at h
  · exact (Option.some.inj h).symm
  · exact absurd h (by simp [announces])

/-- Some thread is about to compare a count of at least `n` with the peak. -/
def Announced (s : System ι) (n : Nat) : Prop :=
  ∃ j, ∃ count, (s.frames j).announces = some count ∧ n ≤ count

instance [Fintype ι] (s : System ι) (n : Nat) : Decidable (Announced s n) :=
  decidable_of_iff (∃ j, ((s.frames j).announces.any (n ≤ ·)) = true) (by
    simp only [Announced, Option.any_eq_true, decide_eq_true_eq])

/-- The peak, or a count about to be compared with it, is at least `n`. -/
def Covers (s : System ι) (n : Nat) : Prop := n ≤ s.metrics.peakInflight ∨ Announced s n

instance [Fintype ι] (s : System ι) (n : Nat) : Decidable (Covers s n) :=
  inferInstanceAs (Decidable (_ ∨ _))

/-- No step uncovers anything but a store of `reset` into the peak. -/
theorem Took.covers (h : Took s l s' i frame) {n : Nat} (hcovers : Covers s n)
    (hahead : ∀ count peak, s.frames i = .peakExchange count peak → peak < count)
    (hclear : s.frames i = .reset .peakInflight →
      s.metrics.peakInflight ≤ s'.metrics.peakInflight) : Covers s' n := by
  -- What the thread that moves announced it announces still, or the peak has it.
  have hkeep : s.metrics.peakInflight ≤ s'.metrics.peakInflight →
      (∀ count, (s.frames i).announces = some count → frame.announces = some count ∨
        count ≤ s'.metrics.peakInflight) → Covers s' n := by
    intro hpeak hkeeps
    rcases hcovers with hdone | ⟨j, count, hj, hle⟩
    · exact .inl (Nat.le_trans hdone hpeak)
    · by_cases hji : j = i
      · subst hji
        rcases hkeeps count hj with hstill | hdone
        · exact .inr ⟨j, count, by rw [h.frames, Function.update_self, hstill], hle⟩
        · exact .inl (Nat.le_trans hle hdone)
      · exact .inr ⟨j, count, by rw [h.frames, Function.update_of_ne hji, hj], hle⟩
  have hsilent : (s.frames i).announces = none → ∀ count, (s.frames i).announces = some count →
      frame.announces = some count ∨ count ≤ s'.metrics.peakInflight := fun hnone count hc =>
    absurd (hnone.symm.trans hc) (by simp)
  cases h.moved with
  | aside _ peak _ silent | subtract _ _ silent _ _ peak =>
    exact hkeep (Nat.le_of_eq peak.symm) (hsilent silent)
  | add at_add _ _ peak => exact hkeep (Nat.le_of_eq peak.symm) (hsilent (at_add ▸ rfl))
  | issue at_idle _ _ metrics => exact hkeep (by rw [metrics]) (hsilent (at_idle ▸ rfl))
  | clearInflight at_store _ _ peak =>
    exact hkeep (Nat.le_of_eq peak.symm) (hsilent (at_store ▸ rfl))
  | clearPeak at_store => exact hkeep (hclear at_store) (hsilent (at_store ▸ rfl))
  | compare count announces goes metrics =>
    refine hkeep (by rw [metrics]) fun count' hc => ?_
    obtain rfl := Option.some.inj (announces.symm.trans hc)
    rw [goes, metrics]
    exact Frame.peakLoop_cases ..
  | publish count at_exchange _ _ peak =>
    refine hkeep (peak ▸ Nat.le_of_lt (hahead _ _ at_exchange)) fun count' hc => ?_
    obtain rfl := Option.some.inj ((congrArg Frame.announces at_exchange).symm.trans hc)
    exact .inr (Nat.le_of_eq peak.symm)

omit [DecidableEq ι] in
/-- Where no start is in progress the peak covers it by itself. -/
theorem Covers.le_peak {n : Nat} (h : Covers s n)
    (hquiet : ∀ j, (s.frames j).inStart = false) : n ≤ s.metrics.peakInflight := by
  rcases h with hdone | ⟨j, count, hj, _⟩
  · exact hdone
  · exact absurd (hquiet j) (by rw [Frame.inStart_of_announces hj]; simp)

/-! ## The gauge -/

section Gauge

variable [Fintype ι]

/-- The executions that have been counted as started and not been counted down. -/
def System.running (s : System ι) : Nat :=
  s.unpaired + (Finset.univ.filter fun i => (s.frames i).owes = true).card

theorem Took.running_eq (h : Took s l s' i frame) {before after : Bool}
    (hbefore : (s.frames i).owes = before) (hafter : frame.owes = after) :
    s'.running + before.toNat + s.unpaired = s.running + after.toNat + s'.unpaired := by
  have hcard := card_filter_update (fun frame : Frame => frame.owes = true) s.frames i frame
  rw [hbefore, hafter] at hcard
  unfold System.running
  rw [h.frames]
  cases before <;> cases after <;> simp only [if_true, Bool.false_eq_true, if_false] at hcard <;>
    simp only [Bool.toNat_true, Bool.toNat_false] <;> omega

/-- A thread in the middle of `record_start` owes no decrement. -/
theorem Frame.owes_of_announces {frame : Frame} {count : Nat}
    (h : frame.announces = some count) : frame.owes = false := by
  cases frame <;> first | rfl | exact absurd h (by simp [announces])

/-- The gauge is the number of running executions, as far as it counts; and a thread only tries to
raise the peak. -/
structure Counted (s : System ι) : Prop where
  gauge : s.metrics.inflightTasks = s.running % 2 ^ 64
  ahead : ∀ j count peak, s.frames j = .peakExchange count peak → peak < count

omit [DecidableEq ι] in
theorem counted_start : Counted ({} : System ι) where
  gauge := by simp [System.running, Frame.owes]
  ahead _ _ _ h := absurd h (by simp)

/-- How the number of running executions changes. -/
theorem Took.running_cases (h : Took s l s' i frame) :
    (s.frames i = .startAdd ∧ s'.running = s.running + 1 ∧
        frame = .peakLoad (u64 (s.metrics.inflightTasks + 1)) ∧
        s'.metrics.inflightTasks = u64 (s.metrics.inflightTasks + 1)) ∨
      (s.running = s'.running + 1 ∧
        s'.metrics.inflightTasks = u64 (s.metrics.inflightTasks - 1)) ∨
      (s'.running = s.running ∧ s'.metrics.inflightTasks = s.metrics.inflightTasks) ∨
      (s'.running = s.running ∧ s.frames i = .reset .inflightTasks ∧
        s'.metrics.inflightTasks = 0) := by
  have hsame : ∀ owes : Bool, (s.frames i).owes = owes → frame.owes = owes →
      s'.unpaired = s.unpaired → s'.running = s.running := by
    intro owes hbefore hafter hunpaired
    have hrunning := h.running_eq hbefore hafter
    omega
  cases h.moved with
  | aside inflight _ unpaired _ _ owes =>
    exact .inr (.inr (.inl ⟨hsame _ owes.symm rfl unpaired, inflight⟩))
  | add at_add goes inflight _ unpaired =>
    have hrunning := h.running_eq (congrArg Frame.owes at_add) (congrArg Frame.owes goes)
    exact .inl ⟨at_add, by simp only [Frame.owes] at hrunning; omega, goes, inflight⟩
  | compare count announces goes metrics unpaired =>
    have hafter : frame.owes = false := goes ▸ Frame.peakLoop_owes ..
    exact .inr (.inr (.inl ⟨hsame _ (Frame.owes_of_announces announces) hafter unpaired,
      congrArg Metrics.inflightTasks metrics⟩))
  | publish count at_exchange goes inflight _ unpaired =>
    exact .inr (.inr (.inl ⟨hsame false (at_exchange ▸ rfl) (goes ▸ rfl) unpaired,
      inflight⟩))
  | issue at_idle owes _ metrics unpaired =>
    have hrunning := h.running_eq (congrArg Frame.owes at_idle) owes
    simp only [Frame.owes, Bool.toNat_true, Bool.toNat_false] at hrunning
    exact .inr (.inr (.inl ⟨by omega, congrArg Metrics.inflightTasks metrics⟩))
  | subtract owed paid _ _ inflight _ unpaired =>
    have hrunning := h.running_eq owed paid
    simp only [Bool.toNat_true, Bool.toNat_false] at hrunning
    exact .inr (.inl ⟨by omega, inflight⟩)
  | clearInflight at_store goes inflight _ unpaired =>
    exact .inr (.inr (.inr ⟨hsame false (at_store ▸ rfl) (goes ▸ rfl) unpaired,
      at_store, inflight⟩))
  | clearPeak at_store goes inflight _ unpaired =>
    exact .inr (.inr (.inl ⟨hsame false (at_store ▸ rfl) (goes ▸ rfl) unpaired,
      inflight⟩))

/-- Only a `reset` that finds the gauge above 0 makes it miss executions. -/
theorem Counted.after (h : Counted s) (took : Took s l s' i frame)
    (hclear : s.frames i = .reset .inflightTasks → s.metrics.inflightTasks = 0) : Counted s' where
  gauge := by
    have hgauge := h.gauge
    rcases took.running_cases with ⟨_, hrunning, _, hinflight⟩ | ⟨hrunning, hinflight⟩ |
      ⟨hrunning, hinflight⟩ | ⟨hrunning, hstore, hinflight⟩
    · rw [hinflight, hrunning]
      unfold u64
      omega
    · rw [hinflight]
      unfold u64
      omega
    · rw [hinflight, hrunning, hgauge]
    · rw [hinflight, hrunning, ← hgauge, hclear hstore]
  ahead := by
    rw [took.frames]
    refine Threads.all_update
      (fun frame : Frame => ∀ count peak, frame = .peakExchange count peak → peak < count) h.ahead ?_
    have hsilent : frame.announces = none → ∀ count peak, frame = .peakExchange count peak →
        peak < count := by
      rintro hnone count peak rfl
      exact absurd hnone (by simp [Frame.announces])
    cases took.moved with
    | aside _ _ _ _ still | issue _ _ still | subtract _ _ _ still => exact hsilent still
    | compare count _ goes =>
      intro count' peak hframe
      rw [goes] at hframe
      unfold Frame.peakLoop at hframe
      split at hframe
      next hless =>
        obtain ⟨rfl, rfl⟩ := Frame.peakExchange.inj hframe
        exact hless
      next => exact absurd hframe (by simp)
    | add _ goes | publish _ _ goes | clearInflight _ goes | clearPeak _ goes =>
      intro _ _ hframe
      exact absurd (goes.symm.trans hframe) (by simp)

/-! ## Without `reset` -/

/-- `reset` is not called. -/
def withoutReset (_ : System ι) : Label ι → Prop
  | .call _ c => c ≠ .reset
  | .step _ _ => True

instance : ∀ (s : System ι) (l : Label ι), Decidable (withoutReset s l)
  | _, .call _ _ => inferInstanceAs (Decidable (_ ≠ _))
  | _, .step _ _ => inferInstanceAs (Decidable True)

/-- The largest value of the gauge has been published as its peak, or is about to be. -/
structure Peaked (s : System ι) : Prop extends Counted s where
  seen : min s.running (2 ^ 64 - 1) ≤ s.largest
  peak_le : s.metrics.peakInflight ≤ s.largest
  announced : ∀ j count, (s.frames j).announces = some count → count ≤ s.largest
  published : Covers s s.largest
  noReset : ∀ j, (s.frames j).inReset = false

omit [DecidableEq ι] in
theorem peaked_start : Peaked ({} : System ι) where
  toCounted := counted_start
  seen := by simp [System.running, Frame.owes]
  peak_le := Nat.le_refl _
  announced _ _ h := absurd h (by simp [Frame.announces])
  published := .inl (Nat.le_refl _)
  noReset _ := rfl

namespace Peaked

omit [DecidableEq ι] in
theorem inflight_le (h : Peaked s) : s.metrics.inflightTasks ≤ s.largest := by
  have hgauge := h.gauge
  have hseen := h.seen
  omega

/-- No step but the increment of a start makes the gauge larger than it ever was. -/
theorem largest_eq (h : Peaked s) (took : Took s l s' i frame) (hcounted : Counted s')
    (hrunning : s'.running ≤ s.running) : s'.largest = s.largest := by
  rw [took.largest h.inflight_le]
  have hgauge := hcounted.gauge
  have hseen := h.seen
  exact max_eq_left (by omega)

/-- Nobody announces more than the largest value. -/
theorem announced_keep (h : Peaked s) (took : Took s l s' i frame)
    (hkeeps : ∀ count, frame.announces = some count → count ≤ s'.largest)
    (hlargest : s.largest ≤ s'.largest) (j : ι) (count : Nat)
    (hj : (s'.frames j).announces = some count) : count ≤ s'.largest := by
  rw [took.frames] at hj
  rcases Threads.update_cases (fun frame : Frame => frame.announces = some count) hj with hold | hnew
  · exact Nat.le_trans (h.announced j count hold) hlargest
  · exact hkeeps count hnew.2

/-- The largest value is published, or on its way. -/
theorem covers_largest (h : Peaked s) (took : Took s l s' i frame) (hcounted : Counted s')
    (hnot : ∀ store, s.frames i ≠ .reset store) : Covers s' s'.largest := by
  have hcovers : Covers s' s.largest :=
    took.covers h.published (h.ahead i) fun hstore => absurd hstore (hnot _)
  rcases took.running_cases with ⟨_, _, goes, inflight⟩ | ⟨hrunning, _⟩ | ⟨hrunning, _⟩ |
    ⟨hrunning, _⟩
  · rw [took.largest h.inflight_le]
    rcases max_choice s.largest s'.metrics.inflightTasks with hold | hnew
    · rwa [hold]
    · -- The new count is the largest, and it is announced.
      rw [hnew, inflight]
      exact .inr ⟨i, _, by rw [took.frames, Function.update_self, goes]; rfl, Nat.le_refl _⟩
  · rwa [h.largest_eq took hcounted (by omega)]
  · rwa [h.largest_eq took hcounted (by omega)]
  · rwa [h.largest_eq took hcounted (by omega)]

theorem after (h : Peaked s) (took : Took s l s' i frame) (hok : withoutReset s l) : Peaked s' := by
  have hnot : ∀ store, s.frames i ≠ .reset store := by
    intro store hstore
    exact absurd ((congrArg Frame.inReset hstore).symm.trans (h.noReset i)) (by simp [Frame.inReset])
  have hcounted := h.toCounted.after took fun hstore => absurd hstore (hnot _)
  have hreset : ∀ j, (s'.frames j).inReset = false := by
    rw [took.frames]
    refine Threads.all_update (fun frame : Frame => frame.inReset = false) h.noReset ?_
    refine Bool.eq_false_of_not_eq_true fun hframe => ?_
    rcases took.inReset hframe with hbefore | rfl
    · exact absurd (hbefore.symm.trans (h.noReset i)) (by simp)
    · exact hok rfl
  have hlargest : s.largest ≤ s'.largest := by
    rw [took.largest h.inflight_le]
    exact Nat.le_max_left ..
  have hinflight : s'.metrics.inflightTasks ≤ s'.largest := by
    rw [took.largest h.inflight_le]
    exact Nat.le_max_right ..
  have hseen : min s'.running (2 ^ 64 - 1) ≤ s'.largest := by
    have hseen := h.seen
    have hgauge := hcounted.gauge
    rcases took.running_cases with ⟨_, hrunning, _⟩ | ⟨hrunning, _⟩ | ⟨hrunning, _⟩ | ⟨hrunning, _⟩
    · omega
    · omega
    · omega
    · omega
  have hpublished := h.covers_largest took hcounted hnot
  have hbelow : (∀ count, frame.announces = some count → count ≤ s'.largest) →
      s'.metrics.peakInflight ≤ s'.largest → Peaked s' := fun hkeeps hpeak =>
    ⟨hcounted, hseen, hpeak, h.announced_keep took hkeeps hlargest, hpublished, hreset⟩
  have hsilent : frame.announces = none → ∀ count, frame.announces = some count →
      count ≤ s'.largest := fun hnone count hc => absurd (hnone.symm.trans hc) (by simp)
  cases took.moved with
  | aside _ peak _ _ still | subtract _ _ _ still _ peak =>
    exact hbelow (hsilent still) (peak ▸ Nat.le_trans h.peak_le hlargest)
  | issue _ _ silent metrics =>
    exact hbelow (hsilent silent) (metrics ▸ Nat.le_trans h.peak_le hlargest)
  | clearInflight at_store | clearPeak at_store => exact absurd at_store (hnot _)
  | add at_add goes inflight peak unpaired =>
    refine hbelow (fun count hc => ?_) (peak ▸ Nat.le_trans h.peak_le hlargest)
    rw [goes] at hc
    obtain rfl := Option.some.inj hc
    exact inflight ▸ hinflight
  | compare count announces goes metrics =>
    refine hbelow (fun count' hc => ?_) (metrics ▸ Nat.le_trans h.peak_le hlargest)
    obtain rfl : count' = count := Frame.announces_peakLoop (goes ▸ hc)
    exact Nat.le_trans (h.announced i _ announces) hlargest
  | publish count at_exchange goes _ peak =>
    refine hbelow (hsilent (goes ▸ rfl)) ?_
    have hcount : count ≤ s.largest := h.announced i count (congrArg Frame.announces at_exchange)
    exact peak ▸ Nat.le_trans hcount hlargest

end Peaked

theorem peaked_step : Preserved step withoutReset fun s : System ι => Peaked s := by
  intro s l s' h hok hstep
  obtain ⟨i, frame, took⟩ := exists_took hstep
  exact h.after took hok

/-- The peak is never lowered. -/
theorem Peaked.peak_mono (h : Peaked s) (hstep : step s l = some s') :
    s.metrics.peakInflight ≤ s'.metrics.peakInflight := by
  obtain ⟨i, frame, took⟩ := exists_took hstep
  cases took.moved with
  | aside _ peak | add _ _ _ peak | subtract _ _ _ _ _ peak | clearInflight _ _ _ peak =>
    exact Nat.le_of_eq peak.symm
  | compare _ _ _ metrics | issue _ _ _ metrics => rw [metrics]
  | publish count at_exchange _ _ peak =>
    rw [peak]
    exact Nat.le_of_lt (h.ahead i _ _ at_exchange)
  | clearPeak at_store =>
    have hreset := h.noReset i
    rw [at_store] at hreset
    exact absurd hreset (by simp [Frame.inReset])

/-- The values the gauge has on the way. -/
def gauges (labels : List (Label ι)) : Set Nat :=
  {n | ∃ before after, ∃ t : System ι, labels = before ++ after ∧ Run step free {} before t ∧
    t.metrics.inflightTasks = n}

omit [Fintype ι] in
/-- `largest` is what it is named after. -/
theorem largest_isGreatest {ok : System ι → Label ι → Prop} {labels : List (Label ι)}
    {s : System ι} (run : Run step ok {} labels s) : IsGreatest (gauges labels) s.largest := by
  induction run with
  | nil =>
    refine ⟨⟨[], [], {}, rfl, .nil, rfl⟩, ?_⟩
    rintro n ⟨before, after, t, hsplit, hrun, rfl⟩
    obtain ⟨rfl, rfl⟩ := List.append_eq_nil_iff.mp hsplit.symm
    rw [← hrun.eq_of_nil]
  | @snoc labels s s' l run _ next ih =>
    obtain ⟨i, frame, took⟩ := exists_took next
    have hmax := took.largest (ih.2 ⟨labels, [], s, (List.append_nil _).symm, run.toFree, rfl⟩)
    have hall : Run step free {} (labels ++ [l]) s' := .snoc run.toFree trivial next
    constructor
    · rcases max_choice s.largest s'.metrics.inflightTasks with hold | hnew
      · obtain ⟨before, after, t, rfl, hrun, ht⟩ := ih.1
        exact ⟨before, after ++ [l], t, List.append_assoc .., hrun, by omega⟩
      · exact ⟨labels ++ [l], [], s', (List.append_nil _).symm, hall, by omega⟩
    · rintro n ⟨before, after, t, hsplit, hrun, rfl⟩
      rcases List.eq_nil_or_concat after with rfl | ⟨after, last, rfl⟩
      · rw [List.append_nil] at hsplit
        subst hsplit
        rw [hrun.functional hall, hmax]
        exact Nat.le_max_right ..
      · rw [List.concat_eq_append, ← List.append_assoc] at hsplit
        have hbefore := (List.append_inj' hsplit rfl).1
        rw [hmax]
        exact Nat.le_trans (ih.2 ⟨before, after, t, hbefore, hrun, rfl⟩) (Nat.le_max_left ..)

/-- **The peak.** In every run without `reset`, of any number of threads, `peak_inflight` is never
lowered and never above the largest value the gauge has had, and it is that value whenever no
`record_start` is in progress. -/
theorem peak_is_largest {labels : List (Label ι)} {s : System ι}
    (run : Run step withoutReset {} labels s) :
    ∃ largest, IsGreatest (gauges labels) largest ∧ s.metrics.peakInflight ≤ largest ∧
      ((∀ i, (s.frames i).inStart = false) → s.metrics.peakInflight = largest) ∧
      ∀ more t, Run step withoutReset s more t →
        s.metrics.peakInflight ≤ t.metrics.peakInflight := by
  have h : Peaked s := run.invariant peaked_step peaked_start
  refine ⟨s.largest, largest_isGreatest run, h.peak_le, fun hquiet => ?_, fun more t hmore => ?_⟩
  · exact Nat.le_antisymm h.peak_le (h.published.le_peak hquiet)
  · have hrises : Preserved step withoutReset fun t : System ι =>
        Peaked t ∧ s.metrics.peakInflight ≤ t.metrics.peakInflight := fun t l t' ht hok hstep =>
      ⟨peaked_step t l t' ht.1 hok hstep, Nat.le_trans ht.2 (ht.1.peak_mono hstep)⟩
    exact (hmore.invariant hrises ⟨h, Nat.le_refl _⟩).2

end Gauge

/-- Two starts that overlap. The second one's exchange fails once for no reason. -/
theorem peak_is_largest_two :
    ∃ s : System (Fin 2), Run step withoutReset {}
        [.call 0 .recordStart, .call 1 .recordStart, .step 0 false, .step 1 false, .step 1 false,
         .step 1 true, .step 1 false, .step 0 false] s ∧
      s.metrics.peakInflight = 2 ∧ ∃ largest, IsGreatest (gauges
        [.call (0 : Fin 2) .recordStart, .call 1 .recordStart, .step 0 false, .step 1 false,
         .step 1 false, .step 1 true, .step 1 false, .step 0 false]) largest ∧
        s.metrics.peakInflight = largest := by
  have hrun : Run step withoutReset ({} : System (Fin 2))
      [.call 0 .recordStart, .call 1 .recordStart, .step 0 false, .step 1 false, .step 1 false,
       .step 1 true, .step 1 false, .step 0 false] _ := Run.of_isSome (by decide +kernel)
  obtain ⟨largest, hlargest, _, hpeak, _⟩ := peak_is_largest hrun
  exact ⟨_, hrun, by decide +kernel, largest, hlargest, hpeak (by decide +kernel)⟩

end Monitor
end NexusTask
