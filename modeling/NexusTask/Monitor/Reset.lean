import NexusTask.Monitor.Peak

/-!
# A `reset` while tasks run

`reset` stores 0 into the gauge whatever is running, and the executions that were counted before
still count themselves down: the gauge goes below 0, which for an unsigned counter is just below
`2 ^ 64`. It stores 0 into the peak as well, one step later, when a start may have published its
count already. Both stores are harmless when they find nothing that they would forget.

The counters are good up to `2 ^ 64 - 1` executions. With fewer than that no start is at fault
(`start_counts`).
-/

set_option autoImplicit false

namespace NexusTask
namespace Monitor

open Transition

variable {ι : Type} [DecidableEq ι]

/-- No call is in progress. -/
def Quiescent (s : System ι) : Prop := ∀ i, s.frames i = .idle

/-- The gauge is at most the executions that are not recorded as finished, and the peak at least the
gauge. -/
def Sensible (s : System ι) : Prop :=
  s.metrics.inflightTasks ≤ s.unpaired ∧ s.metrics.inflightTasks ≤ s.metrics.peakInflight

/-- A count of the executions, as far as the counter reaches. -/
def counted (n : Nat) : Nat := min n (2 ^ 64 - 1)

/-- `reset` stores into the gauge when it is 0 anyhow, and into the peak when every execution that
was started is being recorded as finished, or some start is about to publish a count that is enough
for the others. -/
def resetsWhenIdle (s : System ι) : Label ι → Prop
  | .call _ _ => True
  | .step i _ =>
      (s.frames i = .reset .inflightTasks → s.metrics.inflightTasks = 0) ∧
      (s.frames i = .reset .peakInflight → s.unpaired = 0 ∨ Announced s (counted s.unpaired)) ∧
      (s.frames i = .startAdd → counted (s.unpaired + 1) ≤ u64 (s.metrics.inflightTasks + 1) ∨
        Covers s (counted (s.unpaired + 1)))

instance [Fintype ι] : ∀ (s : System ι) (l : Label ι), Decidable (resetsWhenIdle s l)
  | _, .call _ _ => inferInstanceAs (Decidable True)
  | _, .step _ _ => inferInstanceAs (Decidable ((_ → _) ∧ (_ → _ ∨ _) ∧ (_ → _ ∨ _)))

omit [DecidableEq ι] in
theorem Covers.mono {s : System ι} {n m : Nat} (h : Covers s n) (hle : m ≤ n) : Covers s m := by
  rcases h with hdone | ⟨j, count, hj, hcount⟩
  · exact .inl (Nat.le_trans hle hdone)
  · exact .inr ⟨j, count, hj, Nat.le_trans hle hcount⟩

theorem counted_mono {n m : Nat} (h : n ≤ m) : counted n ≤ counted m := by
  unfold counted
  omega

section Runs

variable [Fintype ι] {s s' : System ι} {l : Label ι} {i : ι} {frame : Frame}

/-- The peak covers the executions that go on, whatever is still to be recorded. -/
structure Settling (s : System ι) : Prop extends Counted s where
  covers : Covers s (counted s.unpaired)

omit [DecidableEq ι] in
theorem settling_start : Settling ({} : System ι) where
  toCounted := counted_start
  covers := .inl (Nat.zero_le _)

omit [DecidableEq ι] in
/-- With fewer than `2 ^ 64` executions every start meets the condition. -/
theorem start_counts (h : Counted s) (hfew : s.running + 1 < 2 ^ 64) :
    counted (s.unpaired + 1) ≤ u64 (s.metrics.inflightTasks + 1) := by
  have hgauge := h.gauge
  have hrunning : s.unpaired ≤ s.running := Nat.le_add_right ..
  unfold counted u64
  omega

namespace Settling

theorem after (h : Settling s) (took : Took s l s' i frame)
    (hinflight : s.frames i = .reset .inflightTasks → s.metrics.inflightTasks = 0)
    (hpeak : s.frames i = .reset .peakInflight →
      s.unpaired = 0 ∨ Announced s (counted s.unpaired))
    (hstart : s.frames i = .startAdd →
      counted (s.unpaired + 1) ≤ u64 (s.metrics.inflightTasks + 1) ∨
        Covers s (counted (s.unpaired + 1))) : Settling s' := by
  refine ⟨h.toCounted.after took hinflight, ?_⟩
  have hkeep : ∀ {n}, Covers s n → s.metrics.peakInflight ≤ s'.metrics.peakInflight → Covers s' n :=
    fun hcovers hle => took.covers hcovers (h.ahead i) fun _ => hle
  cases took.moved with
  | aside _ peak unpaired | subtract _ _ _ _ _ peak unpaired
  | clearInflight _ _ _ peak unpaired =>
    rw [unpaired]
    exact hkeep h.covers (Nat.le_of_eq peak.symm)
  | compare _ _ _ metrics unpaired =>
    rw [unpaired]
    exact hkeep h.covers (by rw [metrics])
  | publish count at_exchange _ _ peak unpaired =>
    rw [unpaired]
    exact hkeep h.covers (peak ▸ Nat.le_of_lt (h.ahead i _ _ at_exchange))
  | issue _ _ _ metrics unpaired =>
    exact (hkeep h.covers (by rw [metrics])).mono (counted_mono (by omega))
  | add at_add goes _ peak unpaired =>
    rw [unpaired]
    rcases hstart at_add with hcount | hcovers
    · exact .inr ⟨i, _, by rw [took.frames, Function.update_self, goes]; rfl, hcount⟩
    · exact hkeep hcovers (Nat.le_of_eq peak.symm)
  | clearPeak at_store _ _ _ unpaired =>
    rw [unpaired]
    rcases hpeak at_store with hnone | ⟨j, count, hj, hle⟩
    · rw [hnone]
      exact .inl (Nat.zero_le _)
    · have hji : j ≠ i := by
        rintro rfl
        rw [at_store] at hj
        exact absurd hj (by simp [Frame.announces])
      exact .inr ⟨j, count, by rw [took.frames, Function.update_of_ne hji, hj], hle⟩

omit [DecidableEq ι] in
/-- Between the calls, both counters make sense. -/
theorem sensible (h : Settling s) (hquiet : Quiescent s) : Sensible s := by
  have hrunning : s.running = s.unpaired := by
    have hpaid : ∀ i, (s.frames i).owes = false := fun i => by rw [hquiet i]; rfl
    simp [System.running, hpaid]
  have hgauge := h.gauge
  have hpeak := h.covers.le_peak fun j => by rw [hquiet j]; rfl
  unfold counted at hpeak
  constructor <;> omega

end Settling

theorem settling_step : Preserved step resetsWhenIdle fun s : System ι => Settling s := by
  intro s l s' h hok hstep
  cases l with
  | call i c =>
    obtain ⟨frame, took⟩ := took_call hstep
    have hidle : s.frames i = .idle := by
      by_contra hbusy
      simp only [step, if_neg hbusy] at hstep
      exact absurd hstep (by simp)
    exact h.after took (fun hat => absurd (hidle.symm.trans hat) (by simp))
      (fun hat => absurd (hidle.symm.trans hat) (by simp))
      (fun hat => absurd (hidle.symm.trans hat) (by simp))
  | step i spurious =>
    obtain ⟨frame, took⟩ := took_step hstep
    exact h.after took hok.1 hok.2.1 hok.2.2

/-- **When the gauge survives a `reset`.** In every run in which the two stores of `reset` find
nothing that they would forget, whenever no call is in progress the gauge is at most the number of
executions that go on, and the peak is at least the gauge. -/
theorem gauge_sensible {labels : List (Label ι)} {s : System ι}
    (run : Run step resetsWhenIdle {} labels s) (hquiet : Quiescent s) : Sensible s :=
  (run.invariant settling_step settling_start).sensible hquiet

end Runs

/-- An execution of thread 0 from start to end, a `reset` by thread 1, and another start. -/
def resetBetween : List (Label (Fin 2)) :=
  .call 0 .recordStart :: List.replicate 3 (.step 0 false) ++
  .call 0 (.recordCompletion 5) :: List.replicate 7 (.step 0 false) ++
  .call 1 .reset :: List.replicate 11 (.step 1 false) ++
  .call 0 .recordStart :: List.replicate 3 (.step 0 false)

theorem gauge_sensible_between :
    ∃ s : System (Fin 2), Run step resetsWhenIdle {} resetBetween s ∧
      s.metrics.inflightTasks = 1 ∧ Sensible s := by
  have hrun : Run step resetsWhenIdle ({} : System (Fin 2)) resetBetween _ :=
    Run.of_isSome (by decide +kernel)
  exact ⟨_, hrun, by decide +kernel, gauge_sensible hrun (by unfold Quiescent; decide +kernel)⟩

/-- The `reset` comes while the execution runs. -/
def resetWithin : List (Label (Fin 2)) :=
  .call 0 .recordStart :: List.replicate 3 (.step 0 false) ++
  .call 1 .reset :: List.replicate 11 (.step 1 false) ++
  .call 0 (.recordCompletion 5) :: List.replicate 7 (.step 0 false)

/-- Nothing is running at the end, and the gauge says `2 ^ 64 - 1`. -/
theorem reset_wraps_gauge :
    ∃ s : System (Fin 2), Run step free {} resetWithin s ∧ Quiescent s ∧ s.unpaired = 0 ∧
      s.metrics.inflightTasks = 2 ^ 64 - 1 ∧ ¬ Sensible s := by
  have hrun : Run step free ({} : System (Fin 2)) resetWithin _ :=
    Run.of_isSome (by decide +kernel)
  refine ⟨_, hrun, by unfold Quiescent; decide +kernel, by decide +kernel, by decide +kernel, ?_⟩
  intro h
  exact absurd h.1 (by decide +kernel)

end Monitor
end NexusTask
