import Mathlib.Data.List.Dedup
import NexusTask.Distributed.Placing

/-!
# A broadcast that throws

`broadcast` submits to the local executor first and then to one reachable node after the other, and
takes nothing back. Two things throw on the way: a node without an executor, and an executor whose
pool has been shut down (`Routes.lean` leaves the second one out). Unless it is the local executor
that throws, somebody has the task by then, so a broadcast is all or nothing only where nothing
throws at the nodes. And an executor that is attached to two reachable nodes gets the task twice, so
that the result lists two ids for it.
-/

set_option autoImplicit false

namespace NexusTask
namespace Distributed

variable {φ ω κ : Type}

/-! ## Executors that may be shut down -/

/-- Whether the pool of an executor takes a task with these dependencies. One that is shut down
takes only a task that has to wait for one of them: it is not handed to the pool yet. -/
abbrev Pools := ExecutorRef → List TaskId → Bool

/-- `submit_internal`, which hands the task to the pool last. What the pool throws leaves the id
used up, and in the graph a task that is never run. -/
def World.trySubmit (pools : Pools) (w : World φ ω κ) (e : ExecutorRef) (func : φ) (name : String)
    (submission : SubmissionOptions ω κ) : Except String TaskId × World φ ω κ :=
  let (id, w') := w.submitInternal e func name submission
  if pools e submission.dependencies then (.ok id, w')
  else (.error "ThreadPool is shutdown", { w' with made := w.made })

/-- The callback of `enable_in_memory_transport`, over these pools. -/
def inMemoryTransportOver (pools : Pools) : RemoteSubmitCallback φ ω κ :=
  fun node func name submission w =>
    match node.remoteExecutor with
    | none => (.error "Remote node missing in-memory executor", w)
    | some e =>
        if submission.dependencies.isEmpty then
          w.trySubmit pools e func name { submission with dependencies := [] }
        else w.trySubmit pools e func name submission

/-- `broadcast`, over these pools. -/
def DistributedExecutor.broadcastOver (pools : Pools) (d : DistributedExecutor φ ω κ) (func : φ)
    (name : String) (submission : SubmissionOptions ω κ) (w : World φ ω κ) :
    Except String (List TaskId) × World φ ω κ :=
  match w.trySubmit pools .localExecutor func name { submission with dependencies := [] } with
  | (.error message, w') => (.error message, w')
  | (.ok id, w') =>
      match d.remoteSubmitter with
      | none => (.ok [id], w')
      | some submitter => broadcastTo submitter func name submission d.nodes [id] w'

/-- With every pool running these are the functions of `Routes.lean`. -/
theorem inMemoryTransportOver_running :
    (inMemoryTransportOver fun _ _ => true : RemoteSubmitCallback φ ω κ) = inMemoryTransport := by
  funext node func name submission w
  unfold inMemoryTransportOver inMemoryTransport
  cases node.remoteExecutor <;> rfl

theorem broadcastOver_running (d : DistributedExecutor φ ω κ) (func : φ) (name : String)
    (submission : SubmissionOptions ω κ) (w : World φ ω κ) :
    d.broadcastOver (fun _ _ => true) func name submission w
      = d.broadcast func name submission w := rfl

/-! ## What a broadcast delivers -/

/-- The ids of one submission to each of the executors in turn. -/
def numbered (next : ExecutorRef → TaskId) : List ExecutorRef → List TaskId
  | [] => []
  | e :: es => next e :: numbered (Function.update next e (next e + 1)) es

/-- The task was submitted to these executors, in this order, and `ids` are the ids they gave it. -/
structure Submitted (func : φ) (name : String) (receivers : List ExecutorRef) (ids : List TaskId)
    (w w' : World φ ω κ) : Prop where
  received : ∃ sent, w'.made = w.made ++ sent ∧ sent.map (·.executor) = receivers ∧
    ∀ p ∈ sent, p.func = func ∧ p.name = name
  ids : ids = numbered w.nextTaskId receivers

/-- The executors that have received the task are these, in this order; `ids` has the id each gave
it, and no more ids than there are executors. -/
structure Delivered (func : φ) (name : String) (receivers : List ExecutorRef) (ids : List TaskId)
    (w w' : World φ ω κ) : Prop where
  received : ∃ sent, w'.made = w.made ++ sent ∧ sent.map (·.executor) = receivers ∧
    ∀ p ∈ sent, p.func = func ∧ p.name = name
  ids_eq : ids = receivers.map w.nextTaskId
  oneEach : ids.length = receivers.dedup.length

/-- A call that throws has delivered the task to nobody; one that returns has to each of the
receivers, and returns one id for each. -/
def AllOrNothing (func : φ) (name : String) (receivers : List ExecutorRef) (w : World φ ω κ) :
    Except String (List TaskId) × World φ ω κ → Prop
  | (.error _, w') => w'.made = w.made
  | (.ok ids, w') => Delivered func name receivers ids w w'

/-- The local executor, then those of the reachable nodes in the order of the table. -/
def receivers (nodes : List NodeInfo) : List ExecutorRef :=
  .localExecutor :: (nodes.filter (·.reachable)).filterMap (·.remoteExecutor)

/-- The node has an executor, and its pool takes the task. -/
def NodeInfo.takes (pools : Pools) (dependencies : List TaskId) (node : NodeInfo) : Bool :=
  node.remoteExecutor.any (pools · dependencies)

/-- Where no executor is attached to two nodes, the ids are the next ones of the executors. -/
theorem numbered_of_nodup {next : ExecutorRef → TaskId} {es : List ExecutorRef} (h : es.Nodup) :
    numbered next es = es.map next := by
  induction es generalizing next with
  | nil => rfl
  | cons e es ih =>
    obtain ⟨hnew, hrest⟩ := List.nodup_cons.mp h
    rw [numbered, ih hrest, List.map_cons]
    refine congrArg (next e :: ·) (List.map_congr_left fun e' he' => ?_)
    exact Function.update_of_ne (fun heq : e' = e => hnew (heq ▸ he')) ..

theorem numbered_length (next : ExecutorRef → TaskId) (es : List ExecutorRef) :
    (numbered next es).length = es.length := by
  induction es generalizing next with
  | nil => rfl
  | cons e es ih => rw [numbered, List.length_cons, ih, List.length_cons]

variable {pools : Pools} (func : φ) (name : String) {submission : SubmissionOptions ω κ}

/-- What was submitted is delivered, with one id for each executor, exactly if no executor got it
twice. -/
theorem Submitted.delivered_iff {w w' : World φ ω κ} {es : List ExecutorRef} {ids : List TaskId}
    (h : Submitted func name es ids w w') : Delivered func name es ids w w' ↔ es.Nodup := by
  constructor
  · intro hdelivered
    have hlength : es.dedup.length = es.length := by
      rw [← hdelivered.oneEach, h.ids, numbered_length]
    exact List.dedup_eq_self.mp (es.dedup_sublist.eq_of_length hlength)
  · intro hnodup
    refine ⟨h.received, h.ids.trans (numbered_of_nodup hnodup), ?_⟩
    rw [h.ids, numbered_length, hnodup.dedup]

/-- One submission, and the others after it. -/
theorem Submitted.cons {w w' : World φ ω κ} {e : ExecutorRef} {es : List ExecutorRef}
    {ids : List TaskId}
    (h : Submitted func name es ids (w.submitInternal e func name submission).2 w') :
    Submitted func name (e :: es) (w.nextTaskId e :: ids) w w' := by
  obtain ⟨⟨sent, hmade, hsent, hp⟩, hids⟩ := h
  refine ⟨⟨{ executor := e, func, name, submission } :: sent, ?_, ?_, ?_⟩, ?_⟩
  · exact hmade.trans (List.append_assoc ..)
  · exact congrArg (e :: ·) hsent
  · exact List.forall_mem_cons.mpr ⟨⟨rfl, rfl⟩, hp⟩
  · exact congrArg (w.nextTaskId e :: ·) hids

theorem trySubmit_takes {e : ExecutorRef} (h : pools e submission.dependencies = true)
    (w : World φ ω κ) :
    w.trySubmit pools e func name submission
      = (.ok (w.nextTaskId e), (w.submitInternal e func name submission).2) := if_pos h

theorem trySubmit_refused {e : ExecutorRef} (h : pools e submission.dependencies = false)
    (w : World φ ω κ) :
    ∃ w', w.trySubmit pools e func name submission = (.error "ThreadPool is shutdown", w') ∧
      w'.made = w.made := ⟨_, if_neg (by simp [h]), rfl⟩

/-- Both branches of the callback hand on the submission as it is. -/
theorem inMemoryTransportOver_some {node : NodeInfo} {e : ExecutorRef}
    (h : node.remoteExecutor = some e) (w : World φ ω κ) :
    inMemoryTransportOver pools node func name submission w
      = w.trySubmit pools e func name submission := by
  unfold inMemoryTransportOver
  rw [h]
  dsimp only
  split
  next hempty =>
    obtain ⟨dependencies, taskOptions, callback⟩ := submission
    obtain rfl : dependencies = [] := List.isEmpty_iff.mp hempty
    rfl
  next => rfl

/-- A node that does not take the task throws, and has not received it. -/
theorem inMemoryTransportOver_throws {node : NodeInfo}
    (h : node.takes pools submission.dependencies = false) (w : World φ ω κ) :
    ∃ message w', inMemoryTransportOver pools node func name submission w = (.error message, w') ∧
      w'.made = w.made := by
  cases hexec : node.remoteExecutor with
  | none =>
    refine ⟨"Remote node missing in-memory executor", w, ?_, rfl⟩
    unfold inMemoryTransportOver
    rw [hexec]
  | some e =>
    have hrefused : pools e submission.dependencies = false := by
      simpa [NodeInfo.takes, hexec] using h
    obtain ⟨w', hthrow, hmade⟩ := trySubmit_refused func name hrefused w
    exact ⟨_, w', (inMemoryTransportOver_some func name hexec w).trans hthrow, hmade⟩

/-! ## The loop over the nodes -/

namespace DistributedExecutor

/-- Where every reachable node takes the task, each of them has it in the end. -/
theorem broadcastTo_returns {nodes : List NodeInfo}
    (h : ∀ node ∈ nodes, node.reachable = true → node.takes pools submission.dependencies = true)
    (ids : List TaskId) (w : World φ ω κ) :
    ∃ w' more, broadcastTo (inMemoryTransportOver pools) func name submission nodes ids w
        = (.ok (ids ++ more), w') ∧
      Submitted func name ((nodes.filter (·.reachable)).filterMap (·.remoteExecutor)) more w w' := by
  induction nodes generalizing ids w with
  | nil => exact ⟨w, [], by simp [broadcastTo], ⟨[], by simp⟩, rfl⟩
  | cons node nodes ih =>
    have hrest := ih fun other hmem => h other (.tail _ hmem)
    unfold broadcastTo
    cases hreach : node.reachable with
    | false =>
      rw [List.filter_cons_of_neg (by simp [hreach])]
      exact hrest ids w
    | true =>
      obtain ⟨e, hexec, hpool⟩ :=
        (Option.any_eq_true ..).mp (h node List.mem_cons_self hreach)
      rw [List.filter_cons_of_pos hreach, List.filterMap_cons_some hexec,
        inMemoryTransportOver_some func name hexec, trySubmit_takes func name hpool]
      obtain ⟨w', more, hloop, hsubmitted⟩ :=
        hrest (ids ++ [w.nextTaskId e]) (w.submitInternal e func name submission).2
      refine ⟨w', w.nextTaskId e :: more, ?_, hsubmitted.cons⟩
      simpa using hloop

/-- Where one of them does not, the loop throws, and what it has submitted stays submitted. -/
theorem broadcastTo_throws {nodes : List NodeInfo} {node : NodeInfo} (hmem : node ∈ nodes)
    (hreach : node.reachable = true) (h : node.takes pools submission.dependencies = false)
    (ids : List TaskId) (w : World φ ω κ) :
    ∃ message w', broadcastTo (inMemoryTransportOver pools) func name submission nodes ids w
        = (.error message, w') ∧ w.made <+: w'.made := by
  induction nodes generalizing ids w with
  | nil => exact absurd hmem List.not_mem_nil
  | cons first nodes ih =>
    unfold broadcastTo
    cases hfirst : first.reachable with
    | false =>
      have hrest : node ∈ nodes := by
        rcases List.mem_cons.mp hmem with rfl | hrest
        · exact absurd (hfirst.symm.trans hreach) (by simp)
        · exact hrest
      exact ih hrest ids w
    | true =>
      cases htakes : first.takes pools submission.dependencies with
      | false =>
        -- The first one that throws ends the loop.
        obtain ⟨message, w', hthrow, hmade⟩ :=
          inMemoryTransportOver_throws func name htakes w
        rw [hthrow]
        exact ⟨message, w', rfl, by rw [hmade]⟩
      | true =>
        have hrest : node ∈ nodes := by
          rcases List.mem_cons.mp hmem with rfl | hrest
          · exact absurd (htakes.symm.trans h) (by simp)
          · exact hrest
        obtain ⟨e, hexec, hpool⟩ := (Option.any_eq_true ..).mp htakes
        rw [inMemoryTransportOver_some func name hexec, trySubmit_takes func name hpool]
        obtain ⟨message, w', hthrow, hprefix⟩ :=
          ih hrest (ids ++ [w.nextTaskId e]) (w.submitInternal e func name submission).2
        exact ⟨message, w', hthrow, (List.prefix_append ..).trans hprefix⟩

end DistributedExecutor

/-- **When a broadcast is all or nothing.** With the in-memory transport, exactly if the local
executor is shut down, or every reachable node has an executor whose pool takes the task, and no
executor is there twice. -/
theorem broadcast_all_or_nothing_iff (d : DistributedExecutor φ ω κ)
    (htransport : d.remoteSubmitter = some (inMemoryTransportOver pools)) (w : World φ ω κ) :
    AllOrNothing func name (receivers d.nodes) w (d.broadcastOver pools func name submission w) ↔
      pools .localExecutor [] = false ∨
        (∀ node ∈ d.nodes, node.reachable = true →
          node.takes pools submission.dependencies = true) ∧ (receivers d.nodes).Nodup := by
  let toLocal : SubmissionOptions ω κ := { submission with dependencies := [] }
  unfold DistributedExecutor.broadcastOver
  rw [htransport]
  cases hlocal : pools .localExecutor [] with
  | false =>
    have hrefused : pools .localExecutor toLocal.dependencies = false := hlocal
    obtain ⟨w', hthrow, hmade⟩ := trySubmit_refused func name hrefused w
    rw [hthrow]
    exact iff_of_true hmade (.inl rfl)
  | true =>
    rw [trySubmit_takes func name hlocal, or_iff_right (by simp)]
    dsimp only
    by_cases hall : ∀ node ∈ d.nodes, node.reachable = true →
        node.takes pools submission.dependencies = true
    · obtain ⟨w', more, hloop, hsubmitted⟩ :=
        DistributedExecutor.broadcastTo_returns func name hall [w.nextTaskId .localExecutor]
          (w.submitInternal .localExecutor func name toLocal).2
      rw [hloop, and_iff_right hall]
      exact Submitted.delivered_iff func name hsubmitted.cons
    · refine iff_of_false ?_ fun h => hall h.1
      push Not at hall
      obtain ⟨node, hmem, hreach, hnot⟩ := hall
      obtain ⟨message, w', hloop, sent, hsent⟩ :=
        DistributedExecutor.broadcastTo_throws func name hmem hreach
          (Bool.eq_false_of_not_eq_true hnot) [w.nextTaskId .localExecutor]
          (w.submitInternal .localExecutor func name toLocal).2
      rw [hloop]
      -- The local executor has the task.
      intro hmade
      have hlength := congrArg List.length (hsent.trans hmade)
      simp [World.submitInternal] at hlength

/-- Two reachable nodes, and one that is not and has no executor. -/
def threeReceivers : DistributedExecutor Unit Unit Unit where
  policy := .broadcast
  remoteSubmitter := some (inMemoryTransportOver fun _ _ => true)
  roundRobinCursor := 0
  nodes := [{ address := "a", port := 1, capacity := 4, remoteExecutor := some (.attached 0) },
            { address := "b", port := 1, capacity := 4, reachable := false },
            { address := "c", port := 1, capacity := 4, remoteExecutor := some (.attached 1) }]

theorem broadcast_all_or_nothing_three :
    (threeReceivers.broadcastOver (fun _ _ => true) () "job" ⟨[], (), ()⟩ ⟨fun _ => 7, []⟩).1
      = .ok [7, 7, 7] ∧
    AllOrNothing () "job" [.localExecutor, .attached 0, .attached 1] ⟨fun _ => 7, []⟩
      (threeReceivers.broadcastOver (fun _ _ => true) () "job" ⟨[], (), ()⟩ ⟨fun _ => 7, []⟩) :=
  ⟨rfl, (broadcast_all_or_nothing_iff () "job" threeReceivers rfl _).mpr
    (.inr ⟨by decide, by decide⟩)⟩

/-- One executor attached to two reachable nodes: there are two ids for it. -/
example :
    let d : DistributedExecutor Unit Unit Unit :=
      { threeReceivers with nodes := threeReceivers.nodes.map fun node =>
          { node with remoteExecutor := some (.attached 0) } }
    (d.broadcastOver (fun _ _ => true) () "job" ⟨[], (), ()⟩ ⟨fun _ => 7, []⟩).1
      = .ok [7, 7, 8] := rfl

/-- One reachable node that `add_node` has put there, and nothing attached to it: the broadcast
throws when the local executor has the task already. -/
theorem broadcast_half_done :
    let d : DistributedExecutor Unit Unit Unit :=
      { policy := .broadcast, remoteSubmitter := some (inMemoryTransportOver fun _ _ => true)
        roundRobinCursor := 0, nodes := [{ address := "a", port := 1, capacity := 4 }] }
    (d.broadcastOver (fun _ _ => true) () "job" ⟨[], (), ()⟩ ⟨fun _ => 1, []⟩).1
        = .error "Remote node missing in-memory executor" ∧
      (d.broadcastOver (fun _ _ => true) () "job" ⟨[], (), ()⟩ ⟨fun _ => 1, []⟩).2.made.map
        (·.executor) = [.localExecutor] ∧
      ¬ AllOrNothing () "job" (receivers d.nodes) ⟨fun _ => 1, []⟩
        (d.broadcastOver (fun _ _ => true) () "job" ⟨[], (), ()⟩ ⟨fun _ => 1, []⟩) :=
  ⟨rfl, rfl, List.cons_ne_nil _ _⟩

end Distributed
end NexusTask
