import NexusTask.Executor.Order

/-!
# The last calls of a cancelled task

`cancelled_` is tested at the head of `execute`, some lines before the function is called, and once
more before a retry. A `cancel` that takes effect in the meantime does not stop the call. What is
counted here is the calls that have been made together with the workers on the way to one: once the
flag is set it never grows, whatever else is submitted, polled, retried or cancelled.
-/

set_option autoImplicit false

namespace NexusTask
namespace Executor

open Transition

variable {m n : Nat}

/-- The worker has passed the test of `cancelled_` in `execute`, and has not called the function. -/
def Line.starting : Line → Bool
  | .storeRunning | .countAttempt | .testDeadline | .callFunction => true
  | _ => false

/-- The task a worker may call the function of without another test. -/
@[simp] def WorkerPc.starting : WorkerPc → List TaskId
  | .busy line t => if line.starting then [t] else []
  | .idle => []

theorem WorkerPc.count_starting (line : Line) (x u : TaskId) :
    (WorkerPc.busy line x).starting.count u = if x = u ∧ line.starting = true then 1 else 0 := by
  by_cases hline : line.starting = true
  · rw [WorkerPc.starting, if_pos hline, List.count_singleton]
    simp [hline]
  · simp [hline]

/-- How many workers are on the way to a call of the function of `u`. -/
def State.starting (s : State m n) (u : TaskId) : Nat := tally (WorkerPc.starting ∘ s.workers) u

/-- The calls made, and those that are on their way. -/
def State.calls (s : State m n) (u : TaskId) : Nat := s.started.count u + s.starting u

theorem State.starting_update {s t : State m n} {w : Fin n} {pc : WorkerPc} (u : TaskId)
    (hworkers : t.workers = Function.update s.workers w pc) :
    t.starting u + (s.workers w).starting.count u = s.starting u + pc.starting.count u := by
  have htally := tally_update (WorkerPc.starting ∘ s.workers) w pc.starting u
  rw [← Function.comp_update] at htally
  unfold State.starting
  rw [hworkers]
  exact htally

/-- Only the test of `cancelled_` brings a worker on the way to a call. -/
theorem LineStep.starting {s : State m n} {u : TaskId} {now : Int} {ok : Bool} {k : Task}
    {line line' : Line} (h : LineStep s u now ok line line' k)
    (hc : (s.graph.task u).cancelled = true) (hline : line'.starting = true) :
    line.starting = true ∧ line ≠ .callFunction := by
  cases h with
  | uncancelled hfresh => exact absurd (hfresh.symm.trans hc) (by simp)
  | storeRunning | countAttempt | inTime => exact ⟨rfl, nofun⟩
  | _ => exact absurd hline (by simp [Line.starting])

namespace Move

variable {s t : State m n} {a : Action m n} {u : TaskId}

/-- A worker that goes on with a task makes a call that was on its way, or none. -/
theorem calls_line {w : Fin n} {line line' : Line} {x : TaskId}
    (old : s.workers w = .busy line x)
    (hworkers : t.workers = Function.update s.workers w (.busy line' x))
    (hstarted : t.started = if line = .callFunction then s.started ++ [x] else s.started)
    (hline : x = u → line'.starting = true → line.starting = true ∧ line ≠ .callFunction) :
    t.calls u ≤ s.calls u := by
  have hstarting := State.starting_update u hworkers
  rw [old, WorkerPc.count_starting, WorkerPc.count_starting] at hstarting
  unfold State.calls
  by_cases hx : x = u
  · subst hx
    by_cases hcall : line = .callFunction
    · -- The call leaves the one count for the other.
      subst hcall
      have hafter : ¬ line'.starting = true := fun h => (hline rfl h).2 rfl
      rw [if_pos ⟨rfl, rfl⟩, if_neg (fun h => hafter h.2)] at hstarting
      rw [hstarted, if_pos rfl, List.count_append, List.count_singleton_self]
      omega
    · rw [hstarted, if_neg hcall]
      by_cases hafter : line'.starting = true
      · rw [if_pos ⟨rfl, (hline rfl hafter).1⟩, if_pos ⟨rfl, hafter⟩] at hstarting
        omega
      · have hnone : ¬ (x = x ∧ line'.starting = true) := fun h => hafter h.2
        rw [if_neg hnone] at hstarting
        omega
  · have hcount : t.started.count u = s.started.count u := by
      rw [hstarted]
      split
      · rw [List.count_append, List.count_singleton]
        simp [hx]
      · rfl
    rw [if_neg (fun h => hx h.1), if_neg (fun h => hx h.1)] at hstarting
    rw [hcount]
    exact Nat.add_le_add_left hstarting.le _

/-- Once the flag is set the count never grows. -/
theorem calls_le (hm : Move s a t) (hflag : (s.graph.task u).cancelled = true) :
    t.calls u ≤ s.calls u := by
  have hidle : ∀ {w : Fin n}, t.workers = Function.update s.workers w .idle →
      t.started = s.started → t.calls u ≤ s.calls u := by
    intro w hworkers hstarted
    have hstarting := State.starting_update u hworkers
    unfold State.calls
    rw [hstarted]
    rw [WorkerPc.starting, List.count_nil] at hstarting
    omega
  cases hm with
  | @takes w x old mem =>
    have hstarting := State.starting_update u
      (t := { s with queued := s.queued.erase x }.goto w x .onStart) rfl
    rw [old] at hstarting
    exact Nat.add_le_add_left hstarting.le _
  | line old hline =>
    refine calls_line old rfl rfl ?_
    intro hx
    subst hx
    exact hline.starting hflag
  | workerNotifies old => exact calls_line old rfl rfl nofun
  | resetsFlag old => exact calls_line old rfl rfl nofun
  | remarks old free => exact calls_line old rfl rfl nofun
  | clears old => exact hidle rfl rfl
  | remarkLoses old => exact hidle rfl rfl
  | resubmits old => exact hidle rfl rfl
  | _ => exact Nat.le_refl _

end Move

/-- `cancelled_` of `u` is set, and no more than `k` calls have been made or are on their way. -/
structure Limited (u : TaskId) (k : Nat) (s : State m n) : Prop where
  known : Known s
  flag : (s.graph.task u).cancelled = true
  calls : s.calls u ≤ k

theorem limited_step (u : TaskId) (k : Nat) :
    Preserved (step (m := m) (n := n)) free (Limited u k) := by
  intro s a t h _ hstep
  have hm := Move.of_step hstep
  exact ⟨h.known.move hm, (hm.flags h.known u).cancelled_mono h.flag,
    (hm.calls_le h.flag).trans h.calls⟩

/-- **The last calls.** From any reachable state in which the task's `cancelled_` is set, its
function is called at most once more for each worker that is past the test of the flag by then, in
every run, and the calls that are on their way in the end are counted in. -/
theorem calls_after_cancel {as bs : List (Action m n)} {s t : State m n} {u : TaskId}
    (run : Run step free (start m n) as s) (hflag : (s.graph.task u).cancelled = true)
    (rest : Run step free s bs t) :
    t.started.count u + t.starting u ≤ s.started.count u + s.starting u := by
  have hpreserved : Preserved (step (m := m) (n := n)) free Known :=
    fun _ _ _ h _ hstep => h.move (.of_step hstep)
  have hknown := run.invariant hpreserved known_start
  exact (rest.invariant (limited_step u _) ⟨hknown, hflag, Nat.le_refl _⟩).calls

/-- The worker is past the test when `cancel` sets the flag. -/
def Schedule.overtaken : List (Action 1 1) :=
  submit { maxRetries := 1 } ++ .take 0 1 :: worker 2 ++ .call 0 (.cancel 1) :: client 2

/-- The function is called, throws, and is not retried. -/
def Schedule.throws : List (Action 1 1) := worker 4 ++ .worker 0 0 false :: worker 6

def overtaken : State 1 1 := (exec step free (start 1 1) Schedule.overtaken).get (by decide +kernel)

def throws : State 1 1 := (exec step free overtaken Schedule.throws).get (by decide +kernel)

theorem calls_after_cancel_overtaken : throws.started.count 1 = 1 ∧
    throws.started.count 1 + throws.starting 1
      ≤ overtaken.started.count 1 + overtaken.starting 1 :=
  ⟨by decide +kernel, calls_after_cancel (.of_isSome _) (by decide +kernel) (.of_isSome _)⟩

end Executor
end NexusTask
