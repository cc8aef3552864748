import NexusTask.Executor.Entered
import NexusTask.Executor.Single

/-!
# Promises

The promise of a task submitted with `submit_async` is reached from two places: the callback that
wraps the user's one has it, and `task_promises_` has it for whoever takes it out,
`fulfill_promise`, `fail_promise` or `cancel`. A successful execution goes by both, and calls
`set_value` twice.

When no execution of the task succeeds there is one right to satisfy its promise. It is with the
submission until the promise is registered, then in the table, then with the thread that took it
out, and used up when the promise is satisfied: `tokens` counts it.
-/

set_option autoImplicit false

namespace NexusTask
namespace Executor

open Transition

variable {m n : Nat}

/-! ## The condition -/

/-- If the function of task `u` returns here, it has overrun its timeout. -/
def NeverSucceeds (u : TaskId) (s : State m n) : Action m n → Prop
  | .worker w now ok =>
    s.workers w = .busy .inFunction u → ok = true → (s.graph.task u).overran now = true
  | _ => True

instance (u : TaskId) (s : State m n) : (a : Action m n) → Decidable (NeverSucceeds u s a)
  | .worker w _ _ => inferInstanceAs (Decidable (s.workers w = .busy .inFunction u → _ → _))
  | .call _ _ | .client _ _ | .poll _ | .scheduler | .take _ _ => .isTrue trivial

/-- The lines of a successful execution. -/
def Line.succeeding : Line → Bool
  | .storeCompleted | .onSuccess | .callback | .setCallbackValue | .fulfillPromise | .setValue =>
    true
  | _ => false

/-- The lines from a failure to the end of `fail_promise` or of `reset_for_retry`. -/
def Line.failing : Line → Bool
  | .catchAll | .onFailure | .testCancelled | .testRetries | .recordRetry | .resetStatus
  | .failPromise | .setException => true
  | _ => false

namespace WorkerPc

/-- The task a worker fails. -/
@[simp] def failing : WorkerPc → List TaskId
  | .busy line t => if line.failing then [t] else []
  | .idle => []

/-- The task a worker has executed and not yet satisfied the promise of. -/
@[simp] def resolving : WorkerPc → List TaskId
  | .busy line t => if line.succeeding || line.failing then [t] else []
  | .idle => []

end WorkerPc

/-- The task a client has cancelled and not yet satisfied the promise of. -/
@[simp] def ClientPc.resolving : ClientPc → List TaskId
  | .cancelStatus t | .cancelPromise t | .cancelException t => [t]
  | _ => []

namespace State

variable (s : State m n) (u : TaskId)

/-- The task has finished or has been cancelled, and no thread is on its way to the promise. -/
structure Resolved : Prop where
  ended : (s.graph.task u).status.isTerminal = true ∨ (s.graph.task u).cancelled = true
  workers : ∀ w, u ∉ (s.workers w).resolving
  clients : ∀ c, u ∉ (s.clients c).resolving

/-- The promise of the task is satisfied no more than once, and once when the task is over: with the
value of an execution that has returned, or with the failure. -/
structure PromiseKept : Prop where
  once : (s.promises.promise u).attempts ≤ 1
  resolved : s.Resolved u → (s.promises.promise u).attempts = 1 ∧
    ((s.promises.promise u).result = some .value ∧ u ∈ s.returned ∨
      (s.promises.promise u).result = some .exception ∧ (s.graph.task u).status ≠ .completed)

end State

/-! ## The right to satisfy a promise -/

/-- The task whose promise a client is to register, or has taken out of the table. -/
@[simp] def ClientPc.owing : ClientPc → List TaskId
  | .record t _ | .register t _ | .cancelException t => [t]
  | _ => []

theorem ClientPc.entering_or_resolving_of_owing {pc : ClientPc} {u : TaskId} (h : u ∈ pc.owing) :
    u ∈ pc.entering ∨ u ∈ pc.resolving := by
  cases pc <;> simp_all

theorem Call.entry_owing (op : Call) : op.entry.owing = [] := by cases op <;> rfl

/-- The worker has taken the promise of its task out of the table. -/
def Line.owing : Line → Bool
  | .setValue | .setException => true
  | _ => false

@[simp] def WorkerPc.owing : WorkerPc → List TaskId
  | .busy line t => if line.owing then [t] else []
  | .idle => []

namespace WorkerPc

variable {pc : WorkerPc} {u : TaskId}

theorem resolving_of_failing (h : u ∈ pc.failing) : u ∈ pc.resolving := by
  cases pc <;> simp_all

theorem resolving_of_owing (h : u ∈ pc.owing) : u ∈ pc.resolving := by
  cases pc with
  | idle => exact h
  | busy line x => cases line <;> simp_all [Line.owing, Line.succeeding, Line.failing]

end WorkerPc

/-- In the table, or used. -/
def Promises.tokens (p : Promises) (u : TaskId) : Nat := p.table.count u + (p.promise u).attempts

namespace State

variable (s : State m n) (u t : TaskId)

/-- With a thread. -/
def owing : Nat := tally (ClientPc.owing ∘ s.clients) u + tally (WorkerPc.owing ∘ s.workers) u

def tokens : Nat := s.promises.tokens u + s.owing u

theorem registerPromise_tokens :
    (s.registerPromise t).promises.tokens u = s.promises.tokens u + [t].count u := by
  show (s.promises.table ++ [t]).count u + (s.promises.promise u).attempts
    = s.promises.table.count u + (s.promises.promise u).attempts + [t].count u
  rw [List.count_append]
  omega

theorem takePromise_tokens (h : t ∈ s.promises.table) :
    (s.takePromise t).promises.tokens u + [t].count u = s.promises.tokens u := by
  show (s.promises.table.erase t).count u + (s.promises.promise u).attempts + [t].count u
    = s.promises.table.count u + (s.promises.promise u).attempts
  by_cases hu : u = t
  · subst hu
    have hpos := List.count_pos_iff.mpr h
    rw [List.count_erase_self, List.count_singleton_self]
    omega
  · rw [List.count_erase_of_ne hu, List.count_cons_of_ne (Ne.symm hu)]
    rfl

theorem setPromise_tokens (o : Outcome) :
    (s.setPromise t o).promises.tokens u = s.promises.tokens u + [t].count u := by
  show s.promises.table.count u
      + (Function.update s.promises.promise t ((s.promises.promise t).set o) u).attempts
    = s.promises.table.count u + (s.promises.promise u).attempts + [t].count u
  by_cases hu : u = t
  · subst hu
    rw [Function.update_self, List.count_singleton_self]
    rfl
  · rw [Function.update_of_ne hu, List.count_cons_of_ne (Ne.symm hu)]
    rfl

variable {s u} {t : State m n}

/-- What a client's step does to the promises it makes up for itself. -/
theorem tokens_client {c : Fin m} {old pc : ClientPc} (hold : s.clients c = old)
    (hworkers : t.workers = s.workers) (hclients : t.clients = Function.update s.clients c pc)
    (hpromises : t.promises.tokens u + pc.owing.count u
      = s.promises.tokens u + old.owing.count u) : t.tokens u = s.tokens u := by
  have htally := tally_update (ClientPc.owing ∘ s.clients) c pc.owing u
  rw [← Function.comp_update] at htally
  simp only [Function.comp_apply, hold] at htally
  unfold tokens owing
  rw [hworkers, hclients]
  omega

theorem tokens_worker {w : Fin n} {old pc : WorkerPc} (hold : s.workers w = old)
    (hclients : t.clients = s.clients) (hworkers : t.workers = Function.update s.workers w pc)
    (hpromises : t.promises.tokens u + pc.owing.count u
      = s.promises.tokens u + old.owing.count u) : t.tokens u = s.tokens u := by
  have htally := tally_update (WorkerPc.owing ∘ s.workers) w pc.owing u
  rw [← Function.comp_update] at htally
  simp only [Function.comp_apply, hold] at htally
  unfold tokens owing
  rw [hworkers, hclients]
  omega

theorem newTask_tokens {c : Fin m} {deps : List TaskId} {options : TaskOptions} {async : Bool}
    {now : Int} (old : s.clients c = .newTask deps options async) :
    ((s.newTask deps options async now).setClient c (.record s.nextTaskId deps)).tokens u
      = s.tokens u + [s.nextTaskId].count u := by
  have htally := tally_update (ClientPc.owing ∘ s.clients) c [s.nextTaskId] u
  simp only [Function.comp_apply, old, ClientPc.owing, List.count_nil, Nat.add_zero] at htally
  show s.promises.tokens u + (tally (ClientPc.owing ∘ Function.update s.clients c _) u
    + tally (WorkerPc.owing ∘ s.workers) u) = _
  rw [Function.comp_update, ClientPc.owing, htally]
  unfold tokens owing
  omega

end State

theorem ClientStep.tokens {s : State m n} {pc pc' : ClientPc} {u : TaskId}
    (h : ClientStep s pc pc')
    (hasync : ∀ deps, pc = .record u deps → (s.graph.task u).wrapsPromise = true) :
    (pc.promises s).tokens u + pc'.owing.count u = s.promises.tokens u + pc.owing.count u := by
  cases h with
  | @record t deps hplain =>
    -- The right of a task that has no promise lapses.
    have hu : u ≠ t := by
      rintro rfl
      exact absurd ((hasync deps rfl).symm.trans hplain) (by simp)
    simp [ClientPc.promises, Ne.symm hu]
  -- From the submission to the table.
  | register => simp [ClientPc.promises, State.registerPromise_tokens]
  | cancelRegistered hmem => simp [ClientPc.promises, State.takePromise_tokens, hmem]
  | cancelUnregistered hmem =>
    simp [ClientPc.promises, Move.takePromise_of_notMem hmem]
  | cancelException => simp [ClientPc.promises, State.setPromise_tokens]
  | cancelRaised hset => simp [ClientPc.promises, State.setPromise_tokens]
  | _ => rfl

/-- Only the `set_value` of the wrapped callback satisfies a promise without having taken it. -/
theorem LineStep.tokens {s : State m n} {x u : TaskId} {now : Int} {ok : Bool} {k : Task}
    {line line' : Line} (h : LineStep s x now ok line line' k)
    (hfails : x = u → line.succeeding = false) :
    (line.promises s x).tokens u + (WorkerPc.busy line' x).owing.count u
      = s.promises.tokens u + (WorkerPc.busy line x).owing.count u := by
  generalize hk : s.graph.task x = k₀ at h
  cases h with
  | callbackValue | callbackValueRaised =>
    have hu : x ≠ u := fun hx => absurd (hfails hx) (by simp [Line.succeeding])
    simp [Line.promises, Line.owing, State.setPromise_tokens, hu]
  -- From the table to the worker.
  | registered hmem | failRegistered hmem =>
    simp [Line.promises, Line.owing, State.takePromise_tokens, hmem]
  | unregistered hmem | failUnregistered hmem =>
    simp [Line.promises, Line.owing, Move.takePromise_of_notMem hmem]
  -- Used, whether or not the call throws.
  | value | valueRaised | exception | exceptionRaised =>
    simp [Line.promises, Line.owing, State.setPromise_tokens]
  | _ => rfl

/-! ## One step -/

namespace Move

variable {s t : State m n} {a : Action m n} {u : TaskId}

/-- A step leaves the number of rights as it is, unless it creates the task. -/
theorem tokens (hm : Move s a t)
    (hasync : ∀ c deps, s.clients c = .record u deps → (s.graph.task u).wrapsPromise = true)
    (hfails : ∀ w line, s.workers w = .busy line u → line.succeeding = false)
    (hold : u < s.nextTaskId ∨ t.nextTaskId ≤ u) : t.tokens u = s.tokens u := by
  cases hm with
  | @call c op old =>
    refine State.tokens_client old rfl rfl ?_
    rw [Call.entry_owing]
    rfl
  | @client c now pc hstep => exact State.tokens_client rfl rfl rfl (hstep.tokens (hasync c))
  | newTask now old =>
    have hu : s.nextTaskId ≠ u := by
      rintro rfl
      exact hold.elim (Nat.lt_irrefl _) (Nat.not_succ_le_self _)
    rw [State.newTask_tokens old, List.count_cons_of_ne hu]
    rfl
  | addTask old => exact State.tokens_client old rfl rfl rfl
  | addDependency old => exact State.tokens_client old rfl rfl rfl
  | clientMarks old free => exact State.tokens_client old rfl rfl rfl
  | clientEnqueues old => exact State.tokens_client old rfl rfl rfl
  | cancelFlag old fresh => exact State.tokens_client old rfl rfl rfl
  | cancelStatus old => exact State.tokens_client old rfl rfl rfl
  | cancelNotify old => exact State.tokens_client old rfl rfl rfl
  | cancelClear old => exact State.tokens_client old rfl rfl rfl
  | takes old mem => exact State.tokens_worker old rfl rfl rfl
  | @line w now ok x line line' k old hline =>
    refine State.tokens_worker old rfl rfl (hline.tokens ?_)
    rintro rfl
    exact hfails w line old
  | workerNotifies old => exact State.tokens_worker old rfl rfl rfl
  | clears old => exact State.tokens_worker old rfl rfl rfl
  | resetsFlag old => exact State.tokens_worker old rfl rfl rfl
  | remarks old free => exact State.tokens_worker old rfl rfl rfl
  | remarkLoses old => exact State.tokens_worker old rfl rfl rfl
  | resubmits old => exact State.tokens_worker old rfl rfl rfl
  | _ => rfl

theorem tokens_born (hm : Move s a t) (hle : s.nextTaskId ≤ u) (hlt : u < t.nextTaskId) :
    t.tokens u = s.tokens u + 1 := by
  cases hm with
  | newTask now old =>
    obtain rfl : u = s.nextTaskId := Nat.le_antisymm (Nat.le_of_lt_succ hlt) hle
    rw [State.newTask_tokens old, List.count_singleton_self]
  | _ => exact absurd hlt (Nat.not_lt.mpr hle)

/-- Where no execution succeeds a promise is satisfied with an exception. -/
theorem promise (hm : Move s a t)
    (hfails : ∀ w line, s.workers w = .busy line u → line.succeeding = false) :
    t.promises.promise u = s.promises.promise u ∨
      t.promises.promise u = (s.promises.promise u).set .exception := by
  have hset : ∀ x, Function.update s.promises.promise x ((s.promises.promise x).set .exception) u
      = s.promises.promise u ∨ Function.update s.promises.promise x
        ((s.promises.promise x).set .exception) u = (s.promises.promise u).set .exception := by
    intro x
    by_cases hu : u = x
    · subst hu
      exact .inr (Function.update_self ..)
    · exact .inl (Function.update_of_ne hu ..)
  cases hm with
  | @client c now pc hstep =>
    show ((s.clients c).promises s).promise u = _ ∨ ((s.clients c).promises s).promise u = _
    cases s.clients c with
    | cancelException x => exact hset x
    | _ => exact .inl rfl
  | @line w now ok x line line' k old hline =>
    show (line.promises s x).promise u = _ ∨ (line.promises s x).promise u = _
    cases line with
    | setCallbackValue | setValue =>
      have hu : u ≠ x := by
        rintro rfl
        exact absurd (hfails w _ old) (by simp [Line.succeeding])
      exact .inl (Function.update_of_ne hu ..)
    | setException => exact hset x
    | _ => exact .inl rfl
  | _ => exact .inl rfl

/-- The client that sets `cancelled_` goes on to the promise. -/
theorem flag_resolving (hm : Move s a t) (target : u ∈ s.cancelTarget a)
    (fresh : (s.graph.task u).cancelled = false) (flag : (t.graph.task u).cancelled = true) :
    ∃ c, u ∈ (t.clients c).resolving := by
  cases hm with
  | @cancelFlag c now x old hfresh =>
    refine ⟨c, ?_⟩
    show u ∈ (Function.update s.clients c _ c).resolving
    rw [Function.update_self]
    simpa [State.cancelTarget, old] using target
  | client hstep => exact absurd (fresh.symm.trans flag) (by simp)
  | newTask now old => exact absurd target (by simp [State.cancelTarget, old])
  | addTask old => exact absurd target (by simp [State.cancelTarget, old])
  | addDependency old => exact absurd target (by simp [State.cancelTarget, old])
  | clientMarks old free => exact absurd target (by simp [State.cancelTarget, old])
  | clientEnqueues old => exact absurd target (by simp [State.cancelTarget, old])
  | cancelStatus old => exact absurd target (by simp [State.cancelTarget, old])
  | cancelNotify old => exact absurd target (by simp [State.cancelTarget, old])
  | cancelClear old => exact absurd target (by simp [State.cancelTarget, old])
  | _ => exact absurd target (by simp [State.cancelTarget])

end Move

/-- An execution succeeds when its function returns in time. -/
theorem LineStep.succeeding {s : State m n} {u : TaskId} {now : Int} {ok : Bool} {k : Task}
    {line line' : Line} (h : LineStep s u now ok line line' k) (hline : line.succeeding = false) :
    line'.succeeding = false ∨
      line = .inFunction ∧ line' = .storeCompleted ∧ (s.graph.task u).overran now = false := by
  cases h with
  | returned hin => exact .inr ⟨rfl, rfl, hin⟩
  | storeCompleted | completion | wrapped | plain | callbackValue | registered =>
    exact absurd hline (by simp [Line.succeeding])
  | _ => exact .inl rfl

/-- A worker that ends its task has it to fail. -/
theorem LineStep.ends {s : State m n} {u : TaskId} {now : Int} {ok : Bool} {k : Task}
    {line line' : Line} (h : LineStep s u now ok line line' k) (hline : line.succeeding = false)
    (hk : k.status.isTerminal = true) :
    line'.failing = true ∨ (s.graph.task u).status.isTerminal = true := by
  cases h with
  | storeCancelled | storeFailed | catchAll => exact .inl rfl
  | storeRunning | resetStatus => exact absurd hk nofun
  | storeCompleted => exact absurd hline (by simp [Line.succeeding])
  | _ => exact .inr hk

/-- It goes on failing the task until it has taken the promise, unless it resets the status. -/
theorem LineStep.failing_next {s : State m n} {u : TaskId} {now : Int} {ok : Bool} {k : Task}
    {line line' : Line} (h : LineStep s u now ok line line' k) (hline : line.failing = true)
    (hk : k.status.isTerminal = true) (hmem : u ∈ s.promises.table) (howing : line.owing = false) :
    line'.failing = true := by
  cases h with
  | resetStatus => exact absurd hk nofun
  | failUnregistered hnot => exact absurd hmem hnot
  | exception | exceptionRaised => exact absurd howing (by simp [Line.owing])
  | catchAll | failure | noRetryCancelled | retryUncancelled | retry | noRetry | recordRetry
  | failRegistered => rfl
  | _ => exact absurd hline (by simp [Line.failing])

theorem LineStep.incomplete {s : State m n} {u : TaskId} {now : Int} {ok : Bool} {k : Task}
    {line line' : Line} (h : LineStep s u now ok line line' k) (hline : line.succeeding = false)
    (hu : (s.graph.task u).status ≠ .completed) : k.status ≠ .completed := by
  cases h with
  | storeCancelled | storeRunning | storeFailed | catchAll | resetStatus => exact nofun
  | storeCompleted => exact absurd hline (by simp [Line.succeeding])
  | _ => exact hu

/-- A function that throws. -/
theorem thrown_line {s t : State m n} {w : Fin n} {u : TaskId} {now : Int}
    (old : s.workers w = .busy .inFunction u) (h : step s (.worker w now false) = some t) :
    t.workers w = .busy .catchAll u := by
  simp only [step, old, lineStep] at h
  obtain rfl := Option.some.inj h
  exact Function.update_self ..

/-! ## The invariant -/

/-- What holds of a task none of whose executions succeed. -/
structure Promised (s : State m n) (u : TaskId) : Prop where
  entered : Entered s
  failed : ∀ w line, s.workers w = .busy line u → line.succeeding = false
  unborn : s.nextTaskId ≤ u → s.tokens u = 0
  once : (s.graph.task u).wrapsPromise = true → s.tokens u = 1
  exception : s.promises.promise u = {} ∨ (s.promises.promise u).result = some .exception
  incomplete : (s.graph.task u).status ≠ .completed
  flagged : (s.graph.task u).cancelled = true → u ∈ s.graph.ids
  /-- Whoever ends the task goes on to its promise. -/
  failing : (s.graph.task u).wrapsPromise = true → (s.graph.task u).status.isTerminal = true →
    u ∈ s.promises.table → (∃ w, u ∈ (s.workers w).failing) ∨ ∃ c, u ∈ (s.clients c).resolving
  cancelling : (s.graph.task u).wrapsPromise = true → (s.graph.task u).cancelled = true →
    u ∈ s.promises.table → ∃ c, u ∈ (s.clients c).resolving

theorem promised_start (u : TaskId) : Promised (start m n) u where
  entered := entered_start
  failed w line h := absurd h nofun
  unborn _ := by
    have hclients := tally_eq_zero (f := ClientPc.owing ∘ (start m n).clients) (fun _ => rfl) u
    have hworkers := tally_eq_zero (f := WorkerPc.owing ∘ (start m n).workers) (fun _ => rfl) u
    unfold State.tokens State.owing
    rw [hclients, hworkers]
    rfl
  once h := absurd h nofun
  exception := .inl rfl
  incomplete := nofun
  flagged h := absurd h nofun
  failing h := absurd h nofun
  cancelling h := absurd h nofun

/-- Nobody ends a task outside the graph. -/
theorem Entered.ids_of_terminal {s : State m n} {u : TaskId} (h : Entered s)
    (hterm : (s.graph.task u).status.isTerminal = true) : u ∈ s.graph.ids := by
  by_contra hout
  have hopen := TaskStatus.not_terminal_of_waiting (h.waiting u hout)
  exact absurd (hopen.symm.trans hterm) (by simp)

theorem ClientPc.entered_of_cancelTarget {pc : ClientPc} {u : TaskId} (h : u ∈ pc.cancelTarget) :
    u ∈ pc.entered := by
  cases pc <;> simp_all

namespace State

variable {s : State m n} {u : TaskId}

/-- While the promise is in the table no thread has it. -/
theorem not_owing_client (h : s.tokens u = 1) (hmem : u ∈ s.promises.table) (c : Fin m) :
    u ∉ (s.clients c).owing := by
  intro hc
  have hle := le_tally (ClientPc.owing ∘ s.clients) c u
  have hpos : 0 < ((ClientPc.owing ∘ s.clients) c).count u := List.count_pos_iff.mpr hc
  have htable := List.count_pos_iff.mpr hmem
  unfold tokens owing Promises.tokens at h
  omega

theorem not_owing_worker (h : s.tokens u = 1) (hmem : u ∈ s.promises.table) (w : Fin n) :
    u ∉ (s.workers w).owing := by
  intro hw
  have hle := le_tally (WorkerPc.owing ∘ s.workers) w u
  have hpos : 0 < ((WorkerPc.owing ∘ s.workers) w).count u := List.count_pos_iff.mpr hw
  have htable := List.count_pos_iff.mpr hmem
  unfold tokens owing Promises.tokens at h
  omega

end State

namespace Promised

variable {s t : State m n} {a : Action m n} {u : TaskId}

theorem failed_move (h : Promised s u) (hok : NeverSucceeds u s a) (hstep : step s a = some t)
    {w : Fin n} {line : Line} (hw : t.workers w = .busy line u) : line.succeeding = false := by
  rcases (Move.of_step hstep).workerMove w with hsame | hmove
  · exact h.failed w line (hsame ▸ hw)
  · generalize hold : s.workers w = pc at hmove
    rw [hw] at hmove
    cases hmove with
    | @line now ok _ line₁ _ act hline =>
      rcases hline.succeeding (h.failed w line₁ hold) with hdone | ⟨rfl, rfl, hintime⟩
      · exact hdone
      · subst act
        cases ok with
        | false => exact absurd (hw.symm.trans (thrown_line hold hstep)) (by simp)
        | true => exact absurd (hintime.symm.trans (hok hold rfl)) (by simp)
    | _ => rfl

theorem not_record (h : Promised s u) (hle : s.nextTaskId ≤ u) {c : Fin m} {deps : List TaskId} :
    s.clients c ≠ .record u deps := by
  intro old
  exact absurd (h.entered.known.client_lt old (by simp [ClientPc.refers])) (Nat.not_lt.mpr hle)

theorem unborn_move (h : Promised s u) (hm : Move s a t) (hle : t.nextTaskId ≤ u) :
    t.tokens u = 0 := by
  have hle' := Nat.le_trans hm.nextTaskId_le hle
  rw [hm.tokens (fun c deps old => absurd old (h.not_record hle')) h.failed (.inr hle)]
  exact h.unborn hle'

theorem once_move (h : Promised s u) (hm : Move s a t)
    (hw : (t.graph.task u).wrapsPromise = true) : t.tokens u = 1 := by
  by_cases hlt : u < s.nextTaskId
  · have hasync := (hm.wrapsPromise_eq hlt).symm.trans hw
    rw [hm.tokens (fun _ _ _ => hasync) h.failed (.inl hlt)]
    exact h.once hasync
  · -- The step has created the task.
    have hle := Nat.not_lt.mp hlt
    have hborn : u < t.nextTaskId := by
      by_contra hnot
      have hdefault := (h.entered.known.move hm).unborn u (Nat.not_lt.mp hnot)
      exact absurd (hdefault ▸ hw) nofun
    rw [hm.tokens_born hle hborn, h.unborn hle]

theorem exception_move (h : Promised s u) (hm : Move s a t) :
    t.promises.promise u = {} ∨ (t.promises.promise u).result = some .exception := by
  rcases hm.promise h.failed with hsame | hset
  · rw [hsame]
    exact h.exception
  · right
    rw [hset]
    rcases h.exception with hfresh | hthrown
    · rw [hfresh]
      rfl
    · show (s.promises.promise u).result.or _ = _
      rw [hthrown]
      rfl

theorem incomplete_move (h : Promised s u) (hm : Move s a t) :
    (t.graph.task u).status ≠ .completed := by
  cases hm.phase u with
  | same status canRetry => rw [status]; exact h.incomplete
  | born new status => rw [status]; exact nofun
  | line act old hline next => exact hline.incomplete (h.failed _ _ old) h.incomplete
  | cancelFlag target fresh status => rw [status]; exact h.incomplete
  | cancelStatus old next status => rw [status]; exact nofun
  | notified pos status => rw [status]; exact nofun

/-- A cancelled task was in the graph, for `cancel` found it there. -/
theorem flagged_ids (h : Promised s u) (hm : Move s a t)
    (hflag : (t.graph.task u).cancelled = true) : u ∈ s.graph.ids := by
  cases hm.flags h.entered.known u with
  | same hc he => exact h.flagged (hc.symm.trans hflag)
  | clear clearer hc he => exact h.flagged (hc.symm.trans hflag)
  | mark target free hc => exact h.flagged (hc.symm.trans hflag)
  | cancel target fresh hc he =>
    cases a with
    | client c now => exact h.entered.clients c u (ClientPc.entered_of_cancelTarget target)
    | _ => exact absurd target (by simp [State.cancelTarget])

/-- A task that is over was in the graph, for only a thread that has it can end it. -/
theorem terminal_ids (h : Promised s u) (hm : Move s a t)
    (hterm : (t.graph.task u).status.isTerminal = true) : u ∈ s.graph.ids := by
  cases hm.phase u with
  | same status canRetry => exact h.entered.ids_of_terminal (status ▸ hterm)
  | born new status => exact absurd (status ▸ hterm) nofun
  | line act old hline next =>
    exact h.entered.workers _ u (by rw [old]; exact List.mem_singleton_self u)
  | cancelFlag target fresh status => exact h.entered.ids_of_terminal (status ▸ hterm)
  | cancelStatus old next status =>
    exact h.entered.clients _ u (by rw [old]; exact List.mem_singleton_self u)
  | notified pos status => exact absurd (status ▸ hterm) nofun

/-- A promise whose task is in the graph gets into the table no more. -/
theorem table_back (h : Promised s u) (hm : Move s a t) (hids : u ∈ s.graph.ids)
    (hmem : u ∈ t.promises.table) : u ∈ s.promises.table := by
  rcases hm.table hmem with hold | ⟨c, deps, hc⟩
  · exact hold
  · exact absurd hids (h.entered.entering c u (by rw [hc]; exact List.mem_singleton_self u))

/-- A client that has cancelled the task goes on until it has taken the promise. -/
theorem resolving_move (h : Promised s u) (hm : Move s a t)
    (hw : (t.graph.task u).wrapsPromise = true) (hids : u ∈ s.graph.ids)
    (hmem : u ∈ t.promises.table) {c : Fin m} (hc : u ∈ (s.clients c).resolving) :
    u ∈ (t.clients c).resolving := by
  have hasync := (hm.wrapsPromise_eq (h.entered.known.ids u hids)).symm.trans hw
  have hmem' := h.table_back hm hids hmem
  have hfree := State.not_owing_client (h.once hasync) hmem' c
  have hfree' := State.not_owing_client (h.once_move hm hw) hmem c
  rcases hm.clientMove c with hsame | hmove
  · exact hsame ▸ hc
  · generalize s.clients c = pc, t.clients c = pc' at hmove hc hfree hfree'
    cases hmove with
    | quiet hstep =>
      cases hstep with
      | cancelRegistered => exact absurd hc hfree'
      | cancelUnregistered hnot => exact absurd (List.mem_singleton.mp hc ▸ hmem') hnot
      | cancelException | cancelRaised => exact absurd hc hfree
      | _ => exact absurd hc (by simp)
    | cancelStatus => exact hc
    | _ => exact absurd hc (by simp)

/-- A worker that fails the task goes on until it has taken the promise. -/
theorem worker_failing_move (h : Promised s u) (hm : Move s a t)
    (hw : (t.graph.task u).wrapsPromise = true) (hids : u ∈ s.graph.ids)
    (hterm : (t.graph.task u).status.isTerminal = true) (hmem : u ∈ t.promises.table) {w : Fin n}
    (hworker : u ∈ (s.workers w).failing) : u ∈ (t.workers w).failing := by
  have hasync := (hm.wrapsPromise_eq (h.entered.known.ids u hids)).symm.trans hw
  have hmem' := h.table_back hm hids hmem
  have hfree := State.not_owing_worker (h.once hasync) hmem' w
  rcases hm.workerMove w with hsame | hmove
  · exact hsame ▸ hworker
  · generalize s.workers w = pc, t.workers w = pc' at hmove hworker hfree
    cases hmove with
    | @line now ok x line line' act hline =>
      obtain ⟨hfailing, rfl⟩ : line.failing = true ∧ u = x := by simpa using hworker
      have howing : line.owing = false := by simpa using hfree
      simp [hline.failing_next hfailing hterm hmem' howing]
    | _ => exact absurd hworker (by simp [Line.failing])

theorem failing_move (h : Promised s u) (hm : Move s a t)
    (hw : (t.graph.task u).wrapsPromise = true)
    (hterm : (t.graph.task u).status.isTerminal = true) (hmem : u ∈ t.promises.table) :
    (∃ w, u ∈ (t.workers w).failing) ∨ ∃ c, u ∈ (t.clients c).resolving := by
  have hids := h.terminal_ids hm hterm
  have hasync := (hm.wrapsPromise_eq (h.entered.known.ids u hids)).symm.trans hw
  have hmem' := h.table_back hm hids hmem
  -- If the task was over before, whoever had it to fail or to cancel still has.
  have hold : (s.graph.task u).status.isTerminal = true →
      (∃ w, u ∈ (t.workers w).failing) ∨ ∃ c, u ∈ (t.clients c).resolving := by
    intro hs
    rcases h.failing hasync hs hmem' with ⟨w, hworker⟩ | ⟨c, hc⟩
    · exact .inl ⟨w, h.worker_failing_move hm hw hids hterm hmem hworker⟩
    · exact .inr ⟨c, h.resolving_move hm hw hids hmem hc⟩
  cases hm.phase u with
  | same status canRetry => exact hold (status ▸ hterm)
  | born new status => exact absurd (status ▸ hterm) nofun
  | @line w now ok line line' act old hline next =>
    rcases hline.ends (h.failed w line old) hterm with hends | hs
    · exact .inl ⟨w, by simp [next, hends]⟩
    · exact hold hs
  | cancelFlag target fresh status => exact hold (status ▸ hterm)
  | @cancelStatus c old next status =>
    exact .inr ⟨c, by rw [next]; exact List.mem_singleton_self u⟩
  | notified pos status => exact absurd (status ▸ hterm) nofun

theorem cancelling_move (h : Promised s u) (hm : Move s a t)
    (hw : (t.graph.task u).wrapsPromise = true) (hflag : (t.graph.task u).cancelled = true)
    (hmem : u ∈ t.promises.table) : ∃ c, u ∈ (t.clients c).resolving := by
  have hids := h.flagged_ids hm hflag
  have hasync := (hm.wrapsPromise_eq (h.entered.known.ids u hids)).symm.trans hw
  have hold : (s.graph.task u).cancelled = true → ∃ c, u ∈ (t.clients c).resolving := by
    intro hs
    obtain ⟨c, hc⟩ := h.cancelling hasync hs (h.table_back hm hids hmem)
    exact ⟨c, h.resolving_move hm hw hids hmem hc⟩
  cases hm.flags h.entered.known u with
  | same hc he => exact hold (hc.symm.trans hflag)
  | clear clearer hc he => exact hold (hc.symm.trans hflag)
  | mark target free hc => exact hold (hc.symm.trans hflag)
  | cancel target fresh hc he => exact hm.flag_resolving target fresh hflag

theorem move (h : Promised s u) (hok : NeverSucceeds u s a) (hstep : step s a = some t) :
    Promised t u where
  entered := h.entered.move (.of_step hstep)
  failed _ _ hw := h.failed_move hok hstep hw
  unborn hle := h.unborn_move (.of_step hstep) hle
  once hw := h.once_move (.of_step hstep) hw
  exception := h.exception_move (.of_step hstep)
  incomplete := h.incomplete_move (.of_step hstep)
  flagged hflag := (Move.of_step hstep).ids_keep (h.flagged_ids (.of_step hstep) hflag)
  failing hw hterm hmem := h.failing_move (.of_step hstep) hw hterm hmem
  cancelling hw hflag hmem := h.cancelling_move (.of_step hstep) hw hflag hmem

/-- The promise of a task that is over has been taken out of the table. -/
theorem taken (h : Promised s u) (hw : (s.graph.task u).wrapsPromise = true) (hu : s.Resolved u) :
    u ∉ s.promises.table := by
  intro hmem
  have hclients : ¬ ∃ c, u ∈ (s.clients c).resolving := fun ⟨c, hc⟩ => hu.clients c hc
  rcases hu.ended with hterm | hflag
  · rcases h.failing hw hterm hmem with ⟨w, hworker⟩ | hc
    · exact hu.workers w (WorkerPc.resolving_of_failing hworker)
    · exact hclients hc
  · exact hclients (h.cancelling hw hflag hmem)

/-- And no thread has it. -/
theorem owing_eq_zero (h : Promised s u) (hu : s.Resolved u) : s.owing u = 0 := by
  have hids : u ∈ s.graph.ids := by
    rcases hu.ended with hterm | hflag
    · exact h.entered.ids_of_terminal hterm
    · exact h.flagged hflag
  have hclients : tally (ClientPc.owing ∘ s.clients) u = 0 := by
    refine tally_eq_zero_of_notMem fun c hc => ?_
    rcases ClientPc.entering_or_resolving_of_owing hc with hentering | hresolving
    · exact h.entered.entering c u hentering hids
    · exact hu.clients c hresolving
  have hworkers : tally (WorkerPc.owing ∘ s.workers) u = 0 :=
    tally_eq_zero_of_notMem fun w hw => hu.workers w (WorkerPc.resolving_of_owing hw)
  unfold State.owing
  omega

theorem kept (h : Promised s u) (hw : (s.graph.task u).wrapsPromise = true) : s.PromiseKept u := by
  have htokens := h.once hw
  unfold State.tokens Promises.tokens at htokens
  refine ⟨by omega, fun hu => ?_⟩
  have htable := List.count_eq_zero.mpr (h.taken hw hu)
  have howing := h.owing_eq_zero hu
  have hattempts : (s.promises.promise u).attempts = 1 := by omega
  refine ⟨hattempts, .inr ⟨?_, h.incomplete⟩⟩
  rcases h.exception with hfresh | hthrown
  · rw [hfresh] at hattempts
    exact absurd hattempts nofun
  · exact hthrown

end Promised

/-- **At most once.** In a run in which no execution of task `u`, submitted with `submit_async`,
succeeds, nothing satisfies its promise twice, and when `u` has failed for good or has been
cancelled the promise has been satisfied with an exception. -/
theorem promise_kept {as : List (Action m n)} {s : State m n} {u : TaskId}
    (run : Run step (NeverSucceeds u) (start m n) as s)
    (hasync : (s.graph.task u).wrapsPromise = true) : s.PromiseKept u := by
  have hpreserved : Preserved (step (m := m) (n := n)) (NeverSucceeds u) (Promised · u) :=
    fun _ _ _ h hok hstep => h.move hok hstep
  exact (run.invariant hpreserved (promised_start u)).kept hasync

namespace Schedule

/-- `submit_async`, up to its end. -/
def submitAsync (options : TaskOptions) : List (Action 1 1) :=
  .call 0 (.submitAsync options []) :: client 10

/-- The function throws twice, and the second time there is no retry left. -/
def failsTwice : List (Action 1 1) :=
  submitAsync { maxRetries := 1 } ++ .take 0 1 :: worker 6 ++ .worker 0 0 false :: worker 9 ++
    .take 0 1 :: worker 6 ++ .worker 0 0 false :: worker 8

/-- The function returns. -/
def succeeds : List (Action 1 1) := submitAsync {} ++ .take 0 1 :: worker 13

end Schedule

def failedTwice : State 1 1 :=
  (exec step (NeverSucceeds 1) (start 1 1) Schedule.failsTwice).get (by decide +kernel)

theorem promise_kept_failedTwice : failedTwice.Resolved 1 ∧ failedTwice.PromiseKept 1 :=
  ⟨⟨by decide +kernel, by decide +kernel, by decide +kernel⟩,
    promise_kept (.of_isSome (by decide +kernel)) (by decide +kernel)⟩

/-- The task has completed, and its promise has been satisfied twice. -/
def keptTwice : State 1 1 :=
  (exec step CallbackReturns (start 1 1) Schedule.succeeds).get (by decide +kernel)

theorem promise_satisfied_twice : ¬ ∀ (as : List (Action 1 1)) (s : State 1 1) (u : TaskId),
    Run step CallbackReturns (start 1 1) as s → (s.graph.task u).wrapsPromise = true →
      s.PromiseKept u := by
  intro hall
  have hkept := hall Schedule.succeeds keptTwice 1 (.of_isSome _) (by decide +kernel)
  exact absurd hkept.once (by decide +kernel)

end Executor
end NexusTask
