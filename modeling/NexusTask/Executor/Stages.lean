import NexusTask.Executor.Sequenced

/-!
# The stages of a task

A solitary task is with its submission, in a queue, with a worker at some line, or it is over. At
each of these stages the attempts, the invocations, the retries, the calls of the callback and the
notifications so far are known from the number of invocations that have thrown before:
`Stage.numbers`. `Reckoned` says so, and survives every sequenced step; each step of the task's own
thread brings it closer to the end.
-/

set_option autoImplicit false

namespace NexusTask

/-- The end of the last execution. -/
def Task.Decided (k : Task) (good : Bool) (i retries : ℕ) : Prop :=
  good = true ∧ k.status = .completed ∨ good = false ∧ i = retries ∧ k.status = .failed

/-- After the attempt `i + 1` there have been `i` retries. -/
theorem Task.retriesLeft_iff {k : Task} {i : ℕ} (h : k.attempts = i + 1) :
    k.retriesLeft = true ↔ i < k.options.maxRetries := by
  unfold Task.retriesLeft
  split
  next hzero => simp [hzero]
  next hpos => simp [h]

namespace Executor

open Transition

variable {m n : Nat}

inductive Stage (n : Nat)
  | submitting (pc : ClientPc)
  | queued
  | executing (w : Fin n) (line : Line)
  | ended

/-- What has been counted for a task. -/
structure Numbers where
  attempts : ℕ
  started : ℕ
  retried : ℕ
  called : ℕ
  notified : ℕ

/-- The numbers at a line of the execution after `i` invocations that have thrown. `good` says
whether the next one returns. -/
def Line.numbers (i : ℕ) (good : Bool) : Line → Numbers
  | .onStart | .loadCancelled | .storeRunning | .countAttempt => ⟨i, i, i, 0, 0⟩
  | .testDeadline | .callFunction => ⟨i + 1, i, i, 0, 0⟩
  | .fulfillPromise => ⟨i + 1, i + 1, i, 1, 0⟩
  | .resetStatus | .resetFlag | .remark | .resubmit => ⟨i + 1, i + 1, i + 1, 0, 0⟩
  | .notify => ⟨i + 1, i + 1, i, good.toNat, 0⟩
  | .clear => ⟨i + 1, i + 1, i, good.toNat, 1⟩
  | _ => ⟨i + 1, i + 1, i, 0, 0⟩

/-- What is known at the line besides. -/
def Line.Fits (k : Task) (good : Bool) (i retries : ℕ) : Line → Prop
  | .onStart | .loadCancelled | .storeRunning | .countAttempt | .testDeadline | .callFunction
  | .inFunction => True
  | .storeCompleted => good = true
  | .onSuccess | .callback | .fulfillPromise => good = true ∧ k.status = .completed
  | .catchAll => good = false
  | .onFailure | .testCancelled | .testRetries => good = false ∧ k.status = .failed
  | .recordRetry | .resetStatus | .resetFlag | .resubmit => good = false ∧ i < retries
  | .remark => good = false ∧ i < retries ∧ k.enqueued = false
  | .failPromise => good = false ∧ i = retries ∧ k.status = .failed
  | .notify | .clear => Task.Decided k good i retries
  -- No cancellation, no promise, and no function that is too late.
  | .storeCancelled | .storeFailed | .setCallbackValue | .setValue | .setException | .terminated =>
    False

/-- What the step of a line adds to the retries recorded. -/
def Line.retried : Line → ℕ
  | .recordRetry => 1
  | _ => 0

/-- What it adds to the calls of the callback. -/
def Line.called : Line → ℕ
  | .callback => 1
  | _ => 0

/-- How far the line is from the end of the execution. -/
def Line.rank : Line → ℕ
  | .onStart => 27
  | .loadCancelled => 26
  | .storeRunning => 25
  | .countAttempt => 24
  | .testDeadline => 23
  | .callFunction => 22
  | .inFunction => 21
  | .storeCompleted | .catchAll => 20
  | .onSuccess | .onFailure => 19
  | .callback | .testCancelled => 18
  | .fulfillPromise | .testRetries => 17
  | .recordRetry | .failPromise => 16
  | .resetStatus => 15
  | .resetFlag => 14
  | .remark => 13
  | .resubmit => 12
  | .notify => 11
  | .clear => 10
  | _ => 0

/-- What is known at a line of the submission. -/
def ClientPc.Fits (u : TaskId) (k : Task) : ClientPc → Prop
  | .record t deps | .add t deps | .edges t deps =>
    t = u ∧ deps = [] ∧ k.status.isWaiting = true ∧ k.enqueued = false
  | .readyStatus t => t = u ∧ k.status.isWaiting = true ∧ k.enqueued = false
  | .readyCount t status => t = u ∧ status.isWaiting = true ∧ k.enqueued = false
  | .readyEnqueued t | .mark t => t = u ∧ k.enqueued = false
  | .enqueue t => t = u
  | _ => False

def ClientPc.rank : ClientPc → ℕ
  | .record _ _ => 37
  | .add _ _ => 36
  | .edges _ _ => 35
  | .readyStatus _ => 34
  | .readyCount _ _ => 33
  | .readyEnqueued _ => 32
  | .mark _ => 31
  | .enqueue _ => 30
  | _ => 0

namespace Stage

def numbers (i : ℕ) (good : Bool) : Stage n → Numbers
  | .submitting _ | .queued => ⟨i, i, i, 0, 0⟩
  | .executing _ line => line.numbers i good
  | .ended => ⟨i + 1, i + 1, i, good.toNat, 1⟩

def Fits (u : TaskId) (k : Task) (good : Bool) (i retries : ℕ) : Stage n → Prop
  | .submitting pc => pc.Fits u k
  | .queued => True
  | .executing _ line => line.Fits k good i retries
  | .ended => k.Decided good i retries

/-- How far the stage is from the end, with the executions that may still follow. -/
def rank (i retries : ℕ) : Stage n → ℕ
  | .submitting pc => 40 * (retries - i) + pc.rank
  | .queued => 40 * (retries - i) + 28
  | .executing _ line => 40 * (retries - i) + line.rank
  | .ended => 0

end Stage

/-- Where the task is at a stage. Client `c` submits it. -/
inductive Placed (c : Fin m) (u : TaskId) (s : State m n) : Stage n → Prop
  | submitting {pc} (client : s.clients c = pc) (mem : u ∈ pc.submitting)
      (others : ∀ d, d ≠ c → u ∉ (s.clients d).submitting) (queued : s.queued.count u = 0)
      (workers : ∀ w, u ∉ (s.workers w).hand) : Placed c u s (.submitting pc)
  | queued (clients : ∀ d, u ∉ (s.clients d).submitting) (queued : s.queued.count u = 1)
      (workers : ∀ w, u ∉ (s.workers w).hand) : Placed c u s .queued
  | executing {w line} (clients : ∀ d, u ∉ (s.clients d).submitting)
      (queued : s.queued.count u = 0) (worker : s.workers w = .busy line u)
      (others : ∀ v, v ≠ w → u ∉ (s.workers v).hand) : Placed c u s (.executing w line)
  | ended (clients : ∀ d, u ∉ (s.clients d).submitting) (queued : s.queued.count u = 0)
      (workers : ∀ w, u ∉ (s.workers w).hand) : Placed c u s .ended

/-- The numbers, with the retries and the calls of the callback counted so far. -/
def State.numbers (s : State m n) (u : TaskId) (retried called : ℕ) : Numbers :=
  ⟨(s.graph.task u).attempts, s.started.count u, retried, called, s.notified.count u⟩

theorem State.numbers_modify {s : State m n} {u : TaskId} {f : Task → Task} {retried called : ℕ}
    (hf : (f (s.graph.task u)).attempts = (s.graph.task u).attempts) :
    (s.modify u f).numbers u retried called = s.numbers u retried called := by
  unfold State.numbers
  rw [State.modify_self, hf]
  rfl

/-- The task is at a stage after `i` invocations that have thrown. -/
structure Reckoned (c : Fin m) (u : TaskId) (retries : ℕ) (outcome : ℕ → Bool) (stage : Stage n)
    (i retried called : ℕ) (s : State m n) : Prop where
  solitary : Solitary retries u s
  placed : Placed c u s stage
  before : ∀ j < i, outcome j = false
  le : i ≤ retries
  fits : stage.Fits u (s.graph.task u) (outcome i) i retries
  numbers : s.numbers u retried called = stage.numbers i (outcome i)

/-- A worker is at the given line with `u`. -/
def AtLine (line : Line) (u : TaskId) (s : State m n) : Action m n → Prop
  | .worker w _ _ => s.workers w = .busy line u
  | _ => False

instance (line : Line) (u : TaskId) (s : State m n) :
    (a : Action m n) → Decidable (AtLine line u s a)
  | .worker w _ _ => inferInstanceAs (Decidable (s.workers w = .busy line u))
  | .call _ _ | .client _ _ | .poll _ | .scheduler | .take _ _ => .isFalse id

/-- Nobody has the task: it has been submitted, and it has been executed for the last time. -/
structure State.Released (s : State m n) (u : TaskId) : Prop where
  clients : ∀ c, u ∉ (s.clients c).submitting
  queued : u ∉ s.queued
  workers : ∀ w, u ∉ (s.workers w).hand

/-! ## One step -/

namespace Unmoved

variable {c : Fin m} {u : TaskId} {s t : State m n} {stage : Stage n}

theorem client_notMem (h : Unmoved u s t) {d : Fin m} (hd : u ∉ (s.clients d).submitting) :
    u ∉ (t.clients d).submitting := by
  intro hmem
  rw [h.clients d (.inr hmem)] at hmem
  exact hd hmem

theorem worker_notMem (h : Unmoved u s t) {w : Fin n} (hw : u ∉ (s.workers w).hand) :
    u ∉ (t.workers w).hand := by
  intro hmem
  rw [h.workers w (.inr hmem)] at hmem
  exact hw hmem

theorem placed (h : Unmoved u s t) (hs : Placed c u s stage) : Placed c u t stage := by
  cases hs with
  | submitting client mem others queued workers =>
    have hkeep : t.clients c = s.clients c := h.clients c (.inl (client ▸ mem))
    exact .submitting (hkeep.trans client) mem (fun d hd => h.client_notMem (others d hd))
      (h.queued.trans queued) fun w => h.worker_notMem (workers w)
  | queued clients queued workers =>
    exact .queued (fun d => h.client_notMem (clients d)) (h.queued.trans queued)
      fun w => h.worker_notMem (workers w)
  | @executing w line clients queued worker others =>
    have hkeep : t.workers w = s.workers w :=
      h.workers w (.inl (by rw [worker]; exact List.mem_singleton_self u))
    exact .executing (fun d => h.client_notMem (clients d)) (h.queued.trans queued)
      (hkeep.trans worker) fun v hv => h.worker_notMem (others v hv)
  | ended clients queued workers =>
    exact .ended (fun d => h.client_notMem (clients d)) (h.queued.trans queued)
      fun w => h.worker_notMem (workers w)

end Unmoved

/-- What is known at a stage is known from the status and the flag. -/
theorem Stage.Fits.congr {u : TaskId} {k k' : Task} {good : Bool} {i retries : ℕ}
    {stage : Stage n} (h : stage.Fits u k good i retries) (hs : k'.status = k.status)
    (he : k'.enqueued = k.enqueued) : stage.Fits u k' good i retries := by
  cases stage with
  | submitting pc => cases pc <;> simp_all [Stage.Fits, ClientPc.Fits]
  | executing w line => cases line <;> simp_all [Stage.Fits, Line.Fits, Task.Decided]
  | queued => exact h
  | ended => simpa only [Stage.Fits, Task.Decided, hs] using h

namespace Reckoned

variable {c : Fin m} {u : TaskId} {retries : ℕ} {outcome : ℕ → Bool} {stage : Stage n}
  {i retried called : ℕ} {s t : State m n} {a : Action m n}

/-- A step of another thread. -/
theorem bystander (h : Reckoned c u retries outcome stage i retried called s) (hm : Move s a t)
    (hseq : Sequenced u outcome s a) (hnot : ¬ Concerns u s a) :
    Reckoned c u retries outcome stage i retried called t where
  solitary := h.solitary.move hseq hm
  placed := (hm.unmoved h.solitary hnot).placed h.placed
  before := h.before
  le := h.le
  fits := by
    have hkept := hm.unwritten h.solitary hseq hnot
    exact h.fits.congr hkept.status hkept.enqueued
  numbers := by
    have hkept := hm.unwritten h.solitary hseq hnot
    rw [← h.numbers]
    simp only [State.numbers, hkept.attempts, hkept.started, hkept.notified]

/-- The submission goes on. -/
theorem submits {pc pc' : ClientPc}
    (h : Reckoned c u retries outcome (.submitting pc) i retried called s)
    {x : State m n} (hsolitary : Solitary retries u (x.setClient c pc'))
    (hclients : x.clients = s.clients) (hqueued : x.queued = s.queued)
    (hworkers : x.workers = s.workers) (hmem : u ∈ pc'.submitting)
    (hfits : pc'.Fits u (x.graph.task u))
    (hnumbers : x.numbers u retried called = s.numbers u retried called)
    (hrank : pc'.rank < pc.rank) :
    Reckoned c u retries outcome (.submitting pc') i retried called (x.setClient c pc') ∧
      (Stage.submitting (n := n) pc').rank i retries
        < (Stage.submitting (n := n) pc).rank i retries := by
  refine ⟨⟨hsolitary, ?_, h.before, h.le, hfits, hnumbers.trans h.numbers⟩,
    Nat.add_lt_add_left hrank _⟩
  cases h.placed with
  | submitting client mem others queued workers =>
    refine .submitting (Function.update_self ..) hmem (fun d hd => ?_)
      ((congrArg _ hqueued).trans queued) fun w => ?_
    · show u ∉ (Function.update x.clients c pc' d).submitting
      rw [Function.update_of_ne hd, hclients]
      exact others d hd
    · show u ∉ (x.workers w).hand
      rw [hworkers]
      exact workers w

/-- The submission gives the task to the pool. -/
theorem enters {pc : ClientPc}
    (h : Reckoned c u retries outcome (.submitting pc) i retried called s)
    (hsolitary : Solitary retries u ((s.enqueue u).setClient c .idle)) :
    Reckoned c u retries outcome .queued i retried called ((s.enqueue u).setClient c .idle) where
  solitary := hsolitary
  placed := by
    cases h.placed with
    | submitting client mem others queued workers =>
      refine .queued (fun d => ?_) ?_ workers
      · show u ∉ (Function.update s.clients c .idle d).submitting
        by_cases hd : d = c
        · rw [hd, Function.update_self]
          exact List.not_mem_nil
        · rw [Function.update_of_ne hd]
          exact others d hd
      · show (s.queued ++ [u]).count u = 1
        rw [List.count_append, queued, List.count_singleton_self]
  before := h.before
  le := h.le
  fits := trivial
  numbers := h.numbers

/-- The execution goes on. -/
theorem goes {w : Fin n} {line line' : Line}
    (h : Reckoned c u retries outcome (.executing w line) i retried called s)
    {x : State m n} {retried' called' : ℕ} (hsolitary : Solitary retries u (x.goto w u line'))
    (hclients : x.clients = s.clients) (hqueued : x.queued = s.queued)
    (hworkers : x.workers = s.workers)
    (hfits : line'.Fits (x.graph.task u) (outcome i) i retries)
    (hnumbers : x.numbers u retried' called' = line'.numbers i (outcome i))
    (hrank : line'.rank < line.rank) :
    Reckoned c u retries outcome (.executing w line') i retried' called' (x.goto w u line') ∧
      (Stage.executing w line').rank i retries < (Stage.executing w line).rank i retries := by
  refine ⟨⟨hsolitary, ?_, h.before, h.le, hfits, hnumbers⟩, Nat.add_lt_add_left hrank _⟩
  cases h.placed with
  | executing clients queued worker others =>
    refine .executing (fun d => ?_) ((congrArg _ hqueued).trans queued)
      (Function.update_self ..) fun v hv => ?_
    · show u ∉ (x.clients d).submitting
      rw [hclients]
      exact clients d
    · show u ∉ (Function.update x.workers w (.busy line' u) v).hand
      rw [Function.update_of_ne hv, hworkers]
      exact others v hv

theorem finished {w : Fin n} {line : Line} {x : State m n}
    (h : Reckoned c u retries outcome (.executing w line) i retried called s)
    (hworkers : x.workers = s.workers) (v : Fin n) : u ∉ ((x.finish w).workers v).hand := by
  cases h.placed with
  | executing clients queued worker others =>
    show u ∉ (Function.update x.workers w .idle v).hand
    by_cases hv : v = w
    · rw [hv, Function.update_self]
      exact List.not_mem_nil
    · rw [Function.update_of_ne hv, hworkers]
      exact others v hv

/-- The failure hook gives the task to the pool again. -/
theorem returns {w : Fin n}
    (h : Reckoned c u retries outcome (.executing w .resubmit) i retried called s)
    (hsolitary : Solitary retries u ((s.enqueue u).finish w)) (hthrown : outcome i = false)
    (hi : i < retries) :
    Reckoned c u retries outcome .queued (i + 1) retried called ((s.enqueue u).finish w) where
  solitary := hsolitary
  placed := by
    refine .queued ?_ ?_ (h.finished (x := s.enqueue u) rfl)
    · cases h.placed with
      | executing clients => exact clients
    · cases h.placed with
      | executing clients queued =>
        show (s.queued ++ [u]).count u = 1
        rw [List.count_append, queued, List.count_singleton_self]
  before j hj := by
    rcases Nat.lt_succ_iff_lt_or_eq.mp hj with hlt | rfl
    · exact h.before j hlt
    · exact hthrown
  le := hi
  fits := trivial
  numbers := h.numbers

/-- The last execution is over. -/
theorem ends {w : Fin n} (h : Reckoned c u retries outcome (.executing w .clear) i retried called s)
    (hsolitary : Solitary retries u ((s.modify u Task.clearEnqueuedFlag).finish w))
    (hdecided : (s.graph.task u).Decided (outcome i) i retries) :
    Reckoned c u retries outcome .ended i retried called
      ((s.modify u Task.clearEnqueuedFlag).finish w) where
  solitary := hsolitary
  placed := by
    refine .ended ?_ ?_ (h.finished (x := s.modify u Task.clearEnqueuedFlag) rfl)
    · cases h.placed with
      | executing clients => exact clients
    · cases h.placed with
      | executing clients queued => exact queued
  before := h.before
  le := h.le
  fits := by
    show Task.Decided ((s.modify u Task.clearEnqueuedFlag).graph.task u) _ _ _
    rw [State.modify_self]
    exact hdecided
  numbers := (State.numbers_modify (f := Task.clearEnqueuedFlag) rfl).trans h.numbers

/-- **The step of the submission.** -/
theorem client_step {pc : ClientPc} {now : Int}
    (h : Reckoned c u retries outcome (.submitting pc) i retried called s)
    (hseq : Sequenced u outcome s (.client c now)) (hstep : step s (.client c now) = some t) :
    ∃ stage', Reckoned c u retries outcome stage' i retried called t ∧
      stage'.rank i retries < (Stage.submitting (n := n) pc).rank i retries := by
  have hsolitary := h.solitary.move hseq (Move.of_step hstep)
  have hfits := h.fits
  have hclient : s.clients c = pc := by
    cases h.placed with
    | submitting client => exact client
  simp only [step, clientStep, hclient] at hstep
  cases pc with
  | record x deps =>
    obtain ⟨rfl, rfl, hwaiting, hfree⟩ := hfits
    dsimp only at hstep
    rw [if_neg (by simp [h.solitary.plain])] at hstep
    obtain rfl := Option.some.inj hstep
    exact ⟨_, h.submits hsolitary rfl rfl rfl (List.mem_singleton_self _)
      ⟨rfl, rfl, hwaiting, hfree⟩ rfl (by simp [ClientPc.rank])⟩
  | add x deps =>
    obtain ⟨rfl, rfl, hwaiting, hfree⟩ := hfits
    obtain rfl := Option.some.inj hstep
    exact ⟨_, h.submits hsolitary rfl rfl rfl (List.mem_singleton_self _)
      ⟨rfl, rfl, hwaiting, hfree⟩ rfl (by simp [ClientPc.rank])⟩
  | edges x deps =>
    obtain ⟨rfl, rfl, hwaiting, hfree⟩ := hfits
    obtain rfl := Option.some.inj hstep
    exact ⟨_, h.submits hsolitary rfl rfl rfl (List.mem_singleton_self _)
      ⟨rfl, hwaiting, hfree⟩ rfl (by simp [ClientPc.rank])⟩
  | readyStatus x =>
    obtain ⟨rfl, hwaiting, hfree⟩ := hfits
    obtain rfl := Option.some.inj hstep
    exact ⟨_, h.submits hsolitary rfl rfl rfl (List.mem_singleton_self _)
      ⟨rfl, hwaiting, hfree⟩ rfl (by simp [ClientPc.rank])⟩
  | readyCount x status =>
    obtain ⟨rfl, hwaiting, hfree⟩ := hfits
    dsimp only at hstep
    rw [if_pos (by simp [h.solitary.count, hwaiting])] at hstep
    obtain rfl := Option.some.inj hstep
    exact ⟨_, h.submits hsolitary rfl rfl rfl (List.mem_singleton_self _) ⟨rfl, hfree⟩ rfl
      (by simp [ClientPc.rank])⟩
  | readyEnqueued x =>
    obtain ⟨rfl, hfree⟩ := hfits
    dsimp only at hstep
    rw [if_neg (by simp [hfree])] at hstep
    obtain rfl := Option.some.inj hstep
    exact ⟨_, h.submits hsolitary rfl rfl rfl (List.mem_singleton_self _) ⟨rfl, hfree⟩ rfl
      (by simp [ClientPc.rank])⟩
  | mark x =>
    obtain ⟨rfl, hfree⟩ := hfits
    dsimp only at hstep
    rw [if_pos (by simp [hfree])] at hstep
    obtain rfl := Option.some.inj hstep
    exact ⟨_, h.submits hsolitary rfl rfl rfl (List.mem_singleton_self _) rfl
      (State.numbers_modify (by simp)) (by simp [ClientPc.rank])⟩
  | enqueue x =>
    obtain rfl : x = u := hfits
    obtain rfl := Option.some.inj hstep
    exact ⟨_, h.enters hsolitary, by simp [Stage.rank, ClientPc.rank]⟩
  | _ => exact hfits.elim

/-- **The step of a worker that takes the task.** -/
theorem take_step {w : Fin n} (h : Reckoned c u retries outcome .queued i retried called s)
    (hseq : Sequenced u outcome s (.take w u)) (hstep : step s (.take w u) = some t) :
    Reckoned c u retries outcome (.executing w .onStart) i retried called t := by
  have hsolitary := h.solitary.move hseq (Move.of_step hstep)
  simp only [step] at hstep
  split at hstep
  next hidle =>
    obtain rfl := Option.some.inj hstep
    refine ⟨hsolitary, ?_, h.before, h.le, trivial, h.numbers⟩
    cases h.placed with
    | queued clients queued workers =>
      refine .executing clients ?_ (Function.update_self ..) fun v hv => ?_
      · show (s.queued.erase u).count u = 0
        rw [List.count_erase_self, queued]
      · show u ∉ (Function.update s.workers w _ v).hand
        rw [Function.update_of_ne hv]
        exact workers v
  next => exact absurd hstep (by simp)

/-- **The step of the worker that has the task.** -/
theorem worker_step {w : Fin n} {line : Line} {now : Int} {ok : Bool}
    (h : Reckoned c u retries outcome (.executing w line) i retried called s)
    (hseq : Sequenced u outcome s (.worker w now ok)) (hstep : step s (.worker w now ok) = some t) :
    ∃ stage' i', Reckoned c u retries outcome stage' i' (retried + line.retried)
        (called + line.called) t ∧
      stage'.rank i' retries < (Stage.executing w line).rank i retries := by
  have hsolitary := h.solitary.move hseq (Move.of_step hstep)
  have hfits := h.fits
  have hworker : s.workers w = .busy line u := by
    cases h.placed with
    | executing clients queued worker => exact worker
  simp only [step, hworker] at hstep
  cases line with
  | onStart =>
    obtain rfl := Option.some.inj hstep
    exact ⟨_, i, h.goes hsolitary rfl rfl rfl trivial h.numbers (by simp [Line.rank])⟩
  | loadCancelled =>
    simp only [lineStep, h.solitary.uncancelled] at hstep
    obtain rfl := Option.some.inj hstep
    exact ⟨_, i, h.goes hsolitary rfl rfl rfl trivial h.numbers (by simp [Line.rank])⟩
  | storeRunning =>
    obtain rfl := Option.some.inj hstep
    exact ⟨_, i, h.goes hsolitary rfl rfl rfl trivial ((State.numbers_modify rfl).trans h.numbers)
      (by simp [Line.rank])⟩
  | countAttempt =>
    obtain rfl := Option.some.inj hstep
    refine ⟨_, i, h.goes hsolitary rfl rfl rfl trivial ?_ (by simp [Line.rank])⟩
    obtain ⟨hattempts, hcounts⟩ := Numbers.mk.inj h.numbers
    refine Numbers.mk.injEq .. ▸ ⟨?_, hcounts⟩
    rw [State.modify_self, hattempts]
  | testDeadline =>
    have hintime : (s.graph.task u).deadlinePassed now = false := by
      simp [Task.deadlinePassed, h.solitary.deadline]
    simp only [lineStep, hintime] at hstep
    obtain rfl := Option.some.inj hstep
    exact ⟨_, i, h.goes hsolitary rfl rfl rfl trivial h.numbers (by simp [Line.rank])⟩
  | callFunction =>
    obtain rfl := Option.some.inj hstep
    refine ⟨_, i, h.goes hsolitary rfl rfl rfl trivial ?_ (by simp [Line.rank])⟩
    obtain ⟨hattempts, hstarted, hcounts⟩ := Numbers.mk.inj h.numbers
    refine Numbers.mk.injEq .. ▸ ⟨hattempts, ?_, hcounts⟩
    show (s.started ++ [u]).count u = i + 1
    rw [List.count_append, hstarted, List.count_singleton_self]
  | inFunction =>
    obtain ⟨_, hstarted, _⟩ := Numbers.mk.inj h.numbers
    have hok : ok = outcome i := by
      rw [hseq.function w now ok rfl hworker, hstarted, Nat.add_sub_cancel]
    have hintime : (s.graph.task u).overran now = false := by
      simp [Task.overran, h.solitary.timeout]
    cases hgood : outcome i with
    | true =>
      simp only [lineStep, hok, hgood, hintime, if_true] at hstep
      obtain rfl := Option.some.inj hstep
      exact ⟨_, i, h.goes hsolitary rfl rfl rfl hgood ((State.numbers_modify rfl).trans h.numbers)
        (by simp [Line.rank])⟩
    | false =>
      simp only [lineStep, hok, hgood] at hstep
      obtain rfl := Option.some.inj hstep
      exact ⟨_, i, h.goes hsolitary rfl rfl rfl hgood h.numbers (by simp [Line.rank])⟩
  | storeCompleted =>
    obtain rfl := Option.some.inj hstep
    refine ⟨_, i, h.goes hsolitary rfl rfl rfl ⟨hfits, ?_⟩
      ((State.numbers_modify rfl).trans h.numbers) (by simp [Line.rank])⟩
    rw [State.modify_self]
  | onSuccess =>
    obtain rfl := Option.some.inj hstep
    exact ⟨_, i, h.goes hsolitary rfl rfl rfl hfits h.numbers (by simp [Line.rank])⟩
  | callback =>
    have hok := hseq.callback w now ok rfl hworker
    simp only [lineStep, hok, h.solitary.plain, if_true] at hstep
    obtain rfl := Option.some.inj hstep
    refine ⟨_, i, h.goes hsolitary rfl rfl rfl hfits ?_ (by simp [Line.rank])⟩
    obtain ⟨hattempts, hstarted, hretried, hcalled, hnotified⟩ := Numbers.mk.inj h.numbers
    exact Numbers.mk.injEq .. ▸ ⟨hattempts, hstarted, hretried, congrArg (· + 1) hcalled, hnotified⟩
  | fulfillPromise =>
    simp only [lineStep, if_neg h.solitary.notMem] at hstep
    obtain rfl := Option.some.inj hstep
    refine ⟨_, i, h.goes hsolitary rfl rfl rfl (.inl hfits) ?_ (by simp [Line.rank])⟩
    rw [Line.numbers, hfits.1]
    exact h.numbers
  | catchAll =>
    obtain rfl := Option.some.inj hstep
    refine ⟨_, i, h.goes hsolitary rfl rfl rfl ⟨hfits, ?_⟩
      ((State.numbers_modify rfl).trans h.numbers) (by simp [Line.rank])⟩
    rw [State.modify_self]
  | onFailure =>
    obtain rfl := Option.some.inj hstep
    exact ⟨_, i, h.goes hsolitary rfl rfl rfl hfits h.numbers (by simp [Line.rank])⟩
  | testCancelled =>
    simp only [lineStep, h.solitary.uncancelled] at hstep
    obtain rfl := Option.some.inj hstep
    exact ⟨_, i, h.goes hsolitary rfl rfl rfl hfits h.numbers (by simp [Line.rank])⟩
  | testRetries =>
    -- The invocation that has just thrown is number `i + 1`.
    obtain ⟨hattempts, _⟩ := Numbers.mk.inj h.numbers
    have hleft := (Task.retriesLeft_iff hattempts).trans (by rw [h.solitary.retries])
    simp only [lineStep] at hstep
    obtain rfl := Option.some.inj hstep
    by_cases hi : i < retries
    · rw [if_pos (hleft.mpr hi)] at hsolitary ⊢
      exact ⟨_, i, h.goes hsolitary rfl rfl rfl ⟨hfits.1, hi⟩ h.numbers (by simp [Line.rank])⟩
    · have hlast : i = retries := Nat.le_antisymm h.le (Nat.le_of_not_lt hi)
      rw [if_neg (mt hleft.mp hi)] at hsolitary ⊢
      exact ⟨_, i, h.goes hsolitary rfl rfl rfl ⟨hfits.1, hlast, hfits.2⟩ h.numbers
        (by simp [Line.rank])⟩
  | recordRetry =>
    obtain rfl := Option.some.inj hstep
    refine ⟨_, i, h.goes hsolitary rfl rfl rfl hfits ?_ (by simp [Line.rank])⟩
    obtain ⟨hattempts, hstarted, hretried, hcounts⟩ := Numbers.mk.inj h.numbers
    exact Numbers.mk.injEq .. ▸ ⟨hattempts, hstarted, congrArg (· + 1) hretried, hcounts⟩
  | resetStatus =>
    obtain rfl := Option.some.inj hstep
    exact ⟨_, i, h.goes hsolitary rfl rfl rfl hfits ((State.numbers_modify rfl).trans h.numbers)
      (by simp [Line.rank])⟩
  | resetFlag =>
    obtain rfl := Option.some.inj hstep
    refine ⟨_, i, h.goes hsolitary rfl rfl rfl ⟨hfits.1, hfits.2, ?_⟩
      ((State.numbers_modify rfl).trans h.numbers) (by simp [Line.rank])⟩
    rw [State.modify_self]
    rfl
  | remark =>
    obtain ⟨hgood, hi, hfree⟩ := hfits
    simp only [lineStep, Task.tryMarkEnqueued_fst, hfree, Bool.not_false, if_true] at hstep
    obtain rfl := Option.some.inj hstep
    exact ⟨_, i, h.goes hsolitary rfl rfl rfl ⟨hgood, hi⟩
      ((State.numbers_modify (by simp)).trans h.numbers) (by simp [Line.rank])⟩
  | resubmit =>
    obtain rfl := Option.some.inj hstep
    refine ⟨_, i + 1, h.returns hsolitary hfits.1 hfits.2, ?_⟩
    simp only [Stage.rank, Line.rank]
    have hi := hfits.2
    omega
  | failPromise =>
    simp only [lineStep, if_neg h.solitary.notMem] at hstep
    obtain rfl := Option.some.inj hstep
    refine ⟨_, i, h.goes hsolitary rfl rfl rfl (.inr hfits) ?_ (by simp [Line.rank])⟩
    rw [Line.numbers, hfits.1]
    exact h.numbers
  | notify =>
    -- The task is not a dependent of its own.
    obtain rfl := Option.some.inj hstep
    have htask := h.solitary.notify_task u
    refine ⟨_, i, h.goes hsolitary rfl rfl rfl ?_ ?_ (by simp [Line.rank])⟩
    · rw [htask]
      exact hfits
    · obtain ⟨hattempts, hstarted, hretried, hcalled, hnotified⟩ := Numbers.mk.inj h.numbers
      refine Numbers.mk.injEq .. ▸ ⟨?_, hstarted, hretried, hcalled, ?_⟩
      · rw [htask, hattempts]
      · show (s.notified ++ [u]).count u = 1
        rw [List.count_append, hnotified, List.count_singleton_self]
  | clear =>
    obtain rfl := Option.some.inj hstep
    exact ⟨_, i, h.ends hsolitary hfits, by simp [Stage.rank, Line.rank]⟩
  | _ => exact hfits.elim

/-- **What a step does to the stage.** The steps of the other threads leave it alone, and each of
its own brings the task closer to the end. -/
theorem step (h : Reckoned c u retries outcome stage i retried called s)
    (hseq : Sequenced u outcome s a) (hstep : Executor.step s a = some t) :
    ∃ stage' i', Reckoned c u retries outcome stage' i'
        (retried + if AtLine .recordRetry u s a then 1 else 0)
        (called + if AtLine .callback u s a then 1 else 0) t ∧
      (Concerns u s a → stage'.rank i' retries < stage.rank i retries) := by
  by_cases hown : Concerns u s a
  · cases a with
    | client d now =>
      cases h.placed with
      | @submitting pc client mem others =>
        obtain rfl : d = c := by
          by_contra hne
          exact others d hne hown
        obtain ⟨stage', hnext, hlt⟩ := h.client_step hseq hstep
        exact ⟨stage', i, hnext, fun _ => hlt⟩
      | queued clients | executing clients | ended clients => exact absurd hown (clients d)
    | take w x =>
      obtain rfl : x = u := hown
      have hmem : x ∈ s.queued := by
        simp only [Executor.step] at hstep
        split at hstep
        next htake => exact htake.2
        next => exact absurd hstep (by simp)
      have hpos := List.count_pos_iff.mpr hmem
      cases h.placed with
      | queued =>
        exact ⟨_, i, h.take_step hseq hstep, fun _ => by simp [Stage.rank, Line.rank]⟩
      | submitting _ _ _ queued | executing _ queued | ended _ queued =>
        exact absurd queued (Nat.ne_of_gt hpos)
    | worker w now ok =>
      cases h.placed with
      | @executing v line clients queued worker others =>
        obtain rfl : w = v := by
          by_contra hne
          exact others w hne hown
        obtain ⟨stage', i', hnext, hlt⟩ := h.worker_step hseq hstep
        have hretried : line.retried =
            if AtLine .recordRetry u s (.worker w now ok) then 1 else 0 := by
          simp only [AtLine, worker, WorkerPc.busy.injEq, and_true]
          cases line <;> rfl
        have hcalled : line.called = if AtLine .callback u s (.worker w now ok) then 1 else 0 := by
          simp only [AtLine, worker, WorkerPc.busy.injEq, and_true]
          cases line <;> rfl
        rw [hretried, hcalled] at hnext
        exact ⟨stage', i', hnext, fun _ => hlt⟩
      | submitting _ _ _ _ workers | queued _ _ workers | ended _ _ workers =>
        exact absurd hown (workers w)
    | _ => exact hown.elim
  · have hline : ∀ line, ¬ AtLine line u s a := by
      intro line hat
      cases a with
      | worker w now ok => exact hown (by rw [Concerns, show s.workers w = _ from hat]; simp)
      | _ => exact hat
    rw [if_neg (hline _), if_neg (hline _)]
    exact ⟨stage, i, h.bystander (.of_step hstep) hseq hown, fun hconcerns => absurd hconcerns hown⟩

theorem run {s₁ : State m n} {as : List (Action m n)}
    (h : Reckoned c u retries outcome stage i 0 0 s₁)
    (hrun : Run Executor.step (Sequenced u outcome) s₁ as t) :
    ∃ stage' i', Reckoned c u retries outcome stage' i'
      (occurrences Executor.step (AtLine .recordRetry u) s₁ as)
      (occurrences Executor.step (AtLine .callback u) s₁ as) t := by
  induction hrun with
  | nil => exact ⟨stage, i, h⟩
  | snoc run meets next ih =>
    obtain ⟨stage', i', hbefore⟩ := ih
    obtain ⟨stage'', i'', hafter, _⟩ := hbefore.step meets next
    rw [run.occurrences_snoc next, run.occurrences_snoc next]
    exact ⟨stage'', i'', hafter⟩

theorem ended_of_released (h : Reckoned c u retries outcome stage i retried called s)
    (hreleased : s.Released u) : stage = .ended := by
  cases h.placed with
  | submitting client mem => exact absurd (client ▸ mem) (hreleased.clients c)
  | queued _ queued =>
    have hmem : u ∈ s.queued := List.count_pos_iff.mp (queued ▸ Nat.one_pos)
    exact absurd hmem hreleased.queued
  | @executing w line _ _ worker =>
    exact absurd (by rw [worker]; exact List.mem_singleton_self u) (hreleased.workers w)
  | ended => rfl

theorem released (h : Reckoned c u retries outcome .ended i retried called s) : s.Released u := by
  cases h.placed with
  | ended clients queued workers => exact ⟨clients, List.count_eq_zero.mp queued, workers⟩

theorem client_enabled {pc : ClientPc}
    (h : Reckoned c u retries outcome (.submitting pc) i retried called s) (now : Int) :
    ∃ t, Executor.step s (.client c now) = some t := by
  have hfits := h.fits
  cases h.placed with
  | submitting client =>
    simp only [Executor.step, clientStep, client]
    cases pc with
    | edges x deps =>
      obtain ⟨_, rfl, _⟩ := hfits
      exact ⟨_, rfl⟩
    | mark x =>
      dsimp only
      split <;> exact ⟨_, rfl⟩
    | record | add | readyStatus | readyCount | readyEnqueued | enqueue => exact ⟨_, rfl⟩
    | _ => exact hfits.elim

/-- The worker has not been lost to an exception. -/
theorem worker_enabled {w : Fin n} {line : Line}
    (h : Reckoned c u retries outcome (.executing w line) i retried called s) (now : Int)
    (ok : Bool) : ∃ t, Executor.step s (.worker w now ok) = some t := by
  have hfits := h.fits
  cases h.placed with
  | executing clients queued worker =>
    simp only [Executor.step, worker]
    cases line with
    | terminated => exact hfits.elim
    | inFunction | callback | fulfillPromise | failPromise | remark =>
      simp only [lineStep]
      split <;> exact ⟨_, rfl⟩
    | _ => exact ⟨_, rfl⟩

/-- The task's own thread has a step to take, if it is not in a queue with all workers busy. -/
theorem next (h : Reckoned c u retries outcome stage i retried called s)
    (hw : ∃ w, s.workers w = .idle ∨ u ∈ (s.workers w).hand) :
    stage = .ended ∨ ∃ a t, Sequenced u outcome s a ∧ Executor.step s a = some t ∧
      Concerns u s a ∧ ∃ w, t.workers w = .idle ∨ u ∈ (t.workers w).hand := by
  cases h.placed with
  | @submitting pc client mem =>
    right
    obtain ⟨t, hstep⟩ := h.client_enabled 0
    refine ⟨.client c 0, t, ⟨by simp, by simp, ?_, by simp⟩, hstep,
      show _ ∈ _ by rw [client]; exact mem, ?_⟩
    · simp only [State.cancelTarget, client]
      cases pc <;> simp_all
    · rw [(Move.of_step hstep).client_workers]
      exact hw
  | queued clients queued workers =>
    right
    obtain ⟨w, hidle | hhand⟩ := hw
    · have hmem : u ∈ s.queued := List.count_pos_iff.mp (queued ▸ Nat.one_pos)
      refine ⟨.take w u, _, ⟨by simp, by simp, by simp [State.cancelTarget], by simp⟩,
        if_pos ⟨hidle, hmem⟩, rfl, w, .inr ?_⟩
      show u ∈ (Function.update s.workers w _ w).hand
      rw [Function.update_self]
      exact List.mem_singleton_self u
    · exact absurd hhand (workers w)
  | @executing w line clients queued worker =>
    right
    have hhand : u ∈ (s.workers w).hand := by rw [worker]; exact List.mem_singleton_self u
    obtain ⟨ok, hfunction, hcallback⟩ : ∃ ok, (line = .inFunction →
        ok = outcome (s.started.count u - 1)) ∧ (line = .callback → ok = true) := by
      by_cases hline : line = .inFunction
      · exact ⟨outcome (s.started.count u - 1), fun _ => rfl, by simp [hline]⟩
      · exact ⟨true, fun heq => absurd heq hline, fun _ => rfl⟩
    obtain ⟨t, hstep⟩ := h.worker_enabled 0 ok
    refine ⟨.worker w 0 ok, t, ⟨?_, ?_, by simp [State.cancelTarget], by simp⟩, hstep, hhand, w, ?_⟩
    · intro v now ok' hact hat
      obtain ⟨rfl, rfl, rfl⟩ := Action.worker.inj hact
      exact hfunction (WorkerPc.busy.inj (worker.symm.trans hat)).1
    · intro v now ok' hact hat
      obtain ⟨rfl, rfl, rfl⟩ := Action.worker.inj hact
      exact hcallback (WorkerPc.busy.inj (worker.symm.trans hat)).1
    · exact (Move.of_step hstep).worker_keeps hhand
  | ended => exact .inl rfl

/-- It comes to the end. -/
theorem exists_released (h : Reckoned c u retries outcome stage i retried called s)
    (hw : ∃ w, s.workers w = .idle ∨ u ∈ (s.workers w).hand) :
    ∃ as t, Run Executor.step (Sequenced u outcome) s as t ∧ t.Released u := by
  let ranked (x : State m n) (k : ℕ) : Prop := ∃ stage i retried called,
    Reckoned c u retries outcome stage i retried called x ∧ stage.rank i retries = k
  have hnext : ∀ (x : State m n) k, (∃ w, x.workers w = .idle ∨ u ∈ (x.workers w).hand) →
      ranked x k → x.Released u ∨ ∃ a y l, Sequenced u outcome x a ∧ Executor.step x a = some y ∧
        (∃ w, y.workers w = .idle ∨ u ∈ (y.workers w).hand) ∧ ranked y l ∧ l < k := by
    rintro x k hx ⟨stage, i, retried, called, hreckoned, rfl⟩
    rcases hreckoned.next hx with rfl | ⟨a, y, hseq, hstep, hown, hy⟩
    · exact .inl hreckoned.released
    · obtain ⟨stage', i', hafter, hlt⟩ := hreckoned.step hseq hstep
      exact .inr ⟨a, y, _, hseq, hstep, hy, ⟨stage', i', _, _, hafter, rfl⟩, hlt hown⟩
  obtain ⟨as, t, hrun, _, hended⟩ := Run.exists_of_rank hnext hw ⟨stage, i, retried, called, h, rfl⟩
  exact ⟨as, t, hrun, hended⟩

end Reckoned

end Executor
end NexusTask
