import Mathlib.Algebra.Group.Nat.Defs
import Mathlib.Data.List.Basic
import Mathlib.Logic.Function.Basic
import NexusTask.Task

/-!
# `DistributedExecutor`

Where a submission goes, and what it carries there. Functions, task options and callbacks are never
looked into on the way, so they are type parameters. A `World` is what the executors have seen: the
next id of each, and the submissions made to them.

`submit` and `broadcast` hand the whole `SubmissionOptions` to the remote submitter, but call
`TaskExecutor::submit` on the local executor, and that one has no parameter for dependencies.
-/

set_option autoImplicit false

namespace NexusTask
namespace Distributed

structure SubmissionOptions (ω κ : Type) where
  dependencies : List TaskId
  taskOptions : ω
  callback : κ
  deriving DecidableEq

/-- The local executor, or one attached to a node. -/
inductive ExecutorRef
  | localExecutor
  | attached (k : Nat)
  deriving DecidableEq

/-- One call of an executor's `submit_internal`. -/
structure Placement (φ ω κ : Type) where
  executor : ExecutorRef
  func : φ
  name : String
  submission : SubmissionOptions ω κ
  deriving DecidableEq

structure World (φ ω κ : Type) where
  nextTaskId : ExecutorRef → TaskId
  made : List (Placement φ ω κ)

variable {φ ω κ : Type}

namespace World

def submitInternal (w : World φ ω κ) (e : ExecutorRef) (func : φ) (name : String)
    (submission : SubmissionOptions ω κ) : TaskId × World φ ω κ :=
  (w.nextTaskId e, {
    nextTaskId := Function.update w.nextTaskId e (w.nextTaskId e + 1)
    made := w.made ++ [{ executor := e, func, name, submission }] })

/-- `TaskExecutor::submit`. -/
def submit (w : World φ ω κ) (e : ExecutorRef) (func : φ) (name : String) (taskOptions : ω)
    (callback : κ) : TaskId × World φ ω κ :=
  w.submitInternal e func name { dependencies := [], taskOptions, callback }

/-- `TaskExecutor::submit_with_dependencies`. -/
def submitWithDependencies (w : World φ ω κ) (e : ExecutorRef) (func : φ)
    (dependencies : List TaskId) (name : String) (taskOptions : ω) (callback : κ) :
    TaskId × World φ ω κ :=
  w.submitInternal e func name { dependencies, taskOptions, callback }

end World

inductive DistributionPolicy
  | localFirst | leastLoaded | roundRobin | broadcast
  deriving DecidableEq

structure NodeInfo where
  address : String
  port : UInt16
  capacity : UInt64
  currentLoad : UInt64 := 0
  reachable : Bool := true
  remoteExecutor : Option ExecutorRef := none

/-- A `RemoteSubmitCallback`: the id it returns or the message of what it throws, and the world
afterwards. -/
abbrev RemoteSubmitCallback (φ ω κ : Type) :=
  NodeInfo → φ → String → SubmissionOptions ω κ → World φ ω κ → Except String TaskId × World φ ω κ

/-- The callback `enable_in_memory_transport` installs. -/
def inMemoryTransport : RemoteSubmitCallback φ ω κ := fun node func name submission w =>
  match node.remoteExecutor with
  | none => (.error "Remote node missing in-memory executor", w)
  | some e =>
      if submission.dependencies.isEmpty then
        let (id, w') := w.submit e func name submission.taskOptions submission.callback
        (.ok id, w')
      else
        let (id, w') := w.submitWithDependencies e func submission.dependencies name
          submission.taskOptions submission.callback
        (.ok id, w')

/-- `roundRobinCursor` is 0 or an index of the vector, so adding to it does not wrap. -/
structure DistributedExecutor (φ ω κ : Type) where
  policy : DistributionPolicy
  remoteSubmitter : Option (RemoteSubmitCallback φ ω κ)
  roundRobinCursor : Nat
  nodes : List NodeInfo

/-! ## `select_node` -/

/-- A node with room for one more task. -/
def NodeInfo.available (node : NodeInfo) : Bool :=
  node.reachable && decide (node.currentLoad < node.capacity)

/-- One turn of the loop under `LeastLoaded`: the load to beat, and the candidate so far. -/
def NodeInfo.lessLoaded (best : UInt64 × Option NodeInfo) (node : NodeInfo) :
    UInt64 × Option NodeInfo :=
  if node.reachable && decide (node.currentLoad < best.1 ∧ node.currentLoad < node.capacity) then
    (node.currentLoad, some node)
  else best

namespace DistributedExecutor

variable (d : DistributedExecutor φ ω κ)

/-- The loop under `RoundRobin`: the candidate, and where the cursor goes. -/
def nextInTurn (cursor : Nat) (nodes : List NodeInfo) : List Nat → Option (NodeInfo × Nat)
  | [] => none
  | i :: rest =>
      let index := (cursor + i) % nodes.length
      match nodes[index]? with
      | some node =>
          if node.available then some (node, (index + 1) % nodes.length)
          else nextInTurn cursor nodes rest
      | none => nextInTurn cursor nodes rest

/-- The candidate, if there is one, and the executor with its cursor moved. -/
def selectNode : Option NodeInfo × DistributedExecutor φ ω κ :=
  if d.nodes.isEmpty then (none, d)
  else match d.policy with
    | .leastLoaded => ((d.nodes.foldl NodeInfo.lessLoaded (UInt64.ofNat (2 ^ 64 - 1), none)).2, d)
    | .roundRobin =>
        match nextInTurn d.roundRobinCursor d.nodes (List.range d.nodes.length) with
        | some (node, cursor) => (some node, { d with roundRobinCursor := cursor })
        | none => (none, d)
    | .localFirst => (d.nodes.find? (·.reachable), d)
    | .broadcast => (none, d)

/-! ## `submit` and `broadcast` -/

/-- The loop of `broadcast` over the nodes. What the callback throws ends it. -/
def broadcastTo (submitter : RemoteSubmitCallback φ ω κ) (func : φ) (name : String)
    (submission : SubmissionOptions ω κ) :
    List NodeInfo → List TaskId → World φ ω κ → Except String (List TaskId) × World φ ω κ
  | [], ids, w => (.ok ids, w)
  | node :: nodes, ids, w =>
      if !node.reachable then broadcastTo submitter func name submission nodes ids w
      else match submitter node func name submission w with
        | (.ok id, w') => broadcastTo submitter func name submission nodes (ids ++ [id]) w'
        | (.error message, w') => (.error message, w')

def broadcast (func : φ) (name : String) (submission : SubmissionOptions ω κ) (w : World φ ω κ) :
    Except String (List TaskId) × World φ ω κ :=
  let (id, w') := w.submit .localExecutor func name submission.taskOptions submission.callback
  match d.remoteSubmitter with
  | none => (.ok [id], w')
  | some submitter => broadcastTo submitter func name submission d.nodes [id] w'

/-- `reloaded` is what the second load of the node's `reachable` returns: another thread may have
marked the node since `select_node` looked at it. -/
def submit (reloaded : Bool) (func : φ) (name : String) (submission : SubmissionOptions ω κ)
    (w : World φ ω κ) : Except String TaskId × World φ ω κ × DistributedExecutor φ ω κ :=
  let onLocal (d : DistributedExecutor φ ω κ) :=
    let (id, w') := w.submit .localExecutor func name submission.taskOptions submission.callback
    (.ok id, w', d)
  if d.policy = .broadcast then
    match d.broadcast func name submission w with
    | (.ok ids, w') => (.ok (ids.headD 0), w', d)
    | (.error message, w') => (.error message, w', d)
  else match d.selectNode with
    | (none, d') => onLocal d'
    | (some node, d') =>
        match d.remoteSubmitter, reloaded with
        | some submitter, true =>
            let (result, w') := submitter node func name submission w
            (result, w', d')
        | _, _ => onLocal d'

end DistributedExecutor

/-! ## When there is a candidate -/

/-- What the policy asks of a candidate. -/
def NodeInfo.Suits (policy : DistributionPolicy) (node : NodeInfo) : Prop :=
  match policy with
  | .localFirst => node.reachable = true
  | .leastLoaded | .roundRobin => node.available = true
  | .broadcast => False

/-- `SIZE_MAX`, the load to beat at first, is above the load of any node with room. -/
theorem NodeInfo.load_lt_max (node : NodeInfo) (h : node.available = true) :
    node.currentLoad < UInt64.ofNat (2 ^ 64 - 1) := by
  simp only [NodeInfo.available, Bool.and_eq_true, decide_eq_true_eq] at h
  have hcap := node.capacity.toNat_lt
  have hload := UInt64.lt_iff_toNat_lt.mp h.2
  rw [UInt64.lt_iff_toNat_lt]
  have hofNat : (UInt64.ofNat (2 ^ 64 - 1)).toNat = 2 ^ 64 - 1 := rfl
  omega

theorem lessLoaded_isSome (nodes : List NodeInfo) (best : UInt64 × Option NodeInfo) :
    (nodes.foldl NodeInfo.lessLoaded best).2.isSome = true ↔
      best.2.isSome = true ∨ ∃ node ∈ nodes, node.available = true ∧ node.currentLoad < best.1 := by
  induction nodes generalizing best with
  | nil => simp
  | cons node nodes ih =>
    rw [List.foldl_cons, ih]
    unfold NodeInfo.lessLoaded
    split
    next h =>
      -- From the first candidate on there is one.
      rw [Bool.and_eq_true, decide_eq_true_eq] at h
      obtain ⟨hreach, hless, hroom⟩ := h
      refine ⟨fun _ => .inr ⟨node, List.mem_cons_self, ?_, hless⟩, fun _ => .inl rfl⟩
      simp [NodeInfo.available, hreach, hroom]
    next h =>
      have hnot : ¬(node.available = true ∧ node.currentLoad < best.1) := by
        rintro ⟨ha, hless⟩
        simp only [NodeInfo.available, Bool.and_eq_true, decide_eq_true_eq] at ha
        exact h (by simp [ha.1, ha.2, hless])
      simp [hnot]

/-- Going round once from any cursor visits every node. -/
theorem nextInTurn_isSome (cursor : Nat) (nodes : List NodeInfo) :
    (DistributedExecutor.nextInTurn cursor nodes (List.range nodes.length)).isSome = true ↔
      ∃ node ∈ nodes, node.available = true := by
  have hloop : ∀ turns : List Nat,
      (DistributedExecutor.nextInTurn cursor nodes turns).isSome = true ↔
        ∃ i ∈ turns, ∃ node, nodes[(cursor + i) % nodes.length]? = some node ∧
          node.available = true := by
    intro turns
    induction turns with
    | nil => simp [DistributedExecutor.nextInTurn]
    | cons i turns ih =>
      unfold DistributedExecutor.nextInTurn
      cases hnode : nodes[(cursor + i) % nodes.length]? with
      | none => simp [hnode, ih]
      | some node =>
        by_cases hroom : node.available = true
        · simp [hnode, hroom]
        · simp [hnode, hroom, ih]
  rw [hloop]
  constructor
  · rintro ⟨i, _, node, hnode, hroom⟩
    exact ⟨node, List.mem_of_getElem? hnode, hroom⟩
  · rintro ⟨node, hmem, hroom⟩
    obtain ⟨j, hj, rfl⟩ := List.mem_iff_getElem.mp hmem
    have hpos : 0 < nodes.length := by omega
    have hcursor := Nat.mod_lt cursor hpos
    -- The turn at which the cursor comes to index `j`.
    let i := (j + (nodes.length - cursor % nodes.length)) % nodes.length
    have hturn : (cursor + i) % nodes.length = j := by
      have hsum : cursor % nodes.length + (j + (nodes.length - cursor % nodes.length))
          = j + nodes.length := by omega
      rw [Nat.add_mod, Nat.mod_mod, ← Nat.add_mod, ← Nat.mod_add_mod, hsum, Nat.add_mod_right,
        Nat.mod_eq_of_lt hj]
    refine ⟨i, List.mem_range.mpr (Nat.mod_lt _ hpos), nodes[j], ?_, hroom⟩
    rw [hturn, List.getElem?_eq_getElem hj]

namespace DistributedExecutor

variable (d : DistributedExecutor φ ω κ)

theorem selectNode_isSome :
    d.selectNode.1.isSome = true ↔ ∃ node ∈ d.nodes, node.Suits d.policy := by
  unfold selectNode
  cases hnodes : d.nodes with
  | nil => simp
  | cons node nodes =>
    rw [← hnodes, if_neg (by simp [hnodes])]
    cases hpolicy : d.policy with
    | leastLoaded =>
      show (d.nodes.foldl NodeInfo.lessLoaded _).2.isSome = true ↔ _
      rw [lessLoaded_isSome]
      constructor
      · rintro (h | ⟨node, hmem, h, _⟩)
        · simp at h
        · exact ⟨node, hmem, h⟩
      · rintro ⟨node, hmem, h⟩
        exact .inr ⟨node, hmem, h, node.load_lt_max h⟩
    | roundRobin =>
      have hturn := nextInTurn_isSome d.roundRobinCursor d.nodes
      dsimp only
      revert hturn
      cases nextInTurn d.roundRobinCursor d.nodes (List.range d.nodes.length) with
      | none => exact fun hturn => hturn
      | some found => exact fun hturn => hturn
    | localFirst => simp [NodeInfo.Suits, List.find?_isSome]
    | broadcast => simp [NodeInfo.Suits]

end DistributedExecutor

/-! ## What a submission carries -/

/-- Every submission made to an executor is the one passed in. -/
def World.Carries (w : World φ ω κ) (submission : SubmissionOptions ω κ) : Prop :=
  ∀ p ∈ w.made, p.submission = submission

instance [DecidableEq ω] [DecidableEq κ] (w : World φ ω κ) (submission : SubmissionOptions ω κ) :
    Decidable (w.Carries submission) :=
  inferInstanceAs (Decidable (∀ p ∈ w.made, p.submission = submission))

/-- `TaskExecutor::submit` makes a submission without dependencies. -/
theorem World.submit_carries (w : World φ ω κ) (e : ExecutorRef) (func : φ) (name : String)
    (submission : SubmissionOptions ω κ) :
    (w.submit e func name submission.taskOptions submission.callback).2.Carries submission ↔
      w.Carries submission ∧ submission.dependencies = [] := by
  show (∀ p ∈ w.made ++ [_], p.submission = submission) ↔ _
  simp only [List.mem_append, List.mem_singleton, or_imp, forall_and, forall_eq]
  refine and_congr Iff.rfl ?_
  obtain ⟨dependencies, taskOptions, callback⟩ := submission
  simp [eq_comm]

variable {submission : SubmissionOptions ω κ} {w : World φ ω κ}

/-- The in-memory transport drops nothing: it calls `submit` for a submission without dependencies
only. -/
theorem inMemoryTransport_carries (h : w.Carries submission) (node : NodeInfo) (func : φ)
    (name : String) : (inMemoryTransport node func name submission w).2.Carries submission := by
  unfold inMemoryTransport
  cases node.remoteExecutor with
  | none => exact h
  | some e =>
    dsimp only
    split
    next hempty => exact (World.submit_carries ..).mpr ⟨h, List.isEmpty_iff.mp hempty⟩
    next =>
      intro p hp
      rcases List.mem_append.mp hp with hp | hp
      · exact h p hp
      · rw [List.mem_singleton.mp hp]

theorem inMemoryTransport_made (w : World φ ω κ) (node : NodeInfo) (func : φ) (name : String)
    (submission : SubmissionOptions ω κ) :
    w.made <+: (inMemoryTransport node func name submission w).2.made := by
  unfold inMemoryTransport
  cases node.remoteExecutor with
  | none => exact List.prefix_refl _
  | some e =>
    dsimp only
    split
    · exact List.prefix_append ..
    · exact List.prefix_append ..

namespace DistributedExecutor

variable {d : DistributedExecutor φ ω κ} {func : φ} {name : String}

/-- The remote submitter, if there is one, is the in-memory transport. -/
def InMemory (d : DistributedExecutor φ ω κ) : Prop :=
  ∀ submitter, d.remoteSubmitter = some submitter → submitter = inMemoryTransport

/-- What one call of the transport preserves, the loop over the nodes preserves. -/
theorem broadcastTo_preserves {P : World φ ω κ → Prop} {submitter : RemoteSubmitCallback φ ω κ}
    (hcall : ∀ node w, P w → P (submitter node func name submission w).2) (nodes : List NodeInfo)
    (ids : List TaskId) (h : P w) :
    P (broadcastTo submitter func name submission nodes ids w).2 := by
  induction nodes generalizing ids w with
  | nil => exact h
  | cons node nodes ih =>
    unfold broadcastTo
    split
    · exact ih ids h
    · have hnode := hcall node w h
      revert hnode
      cases submitter node func name submission w with
      | mk result w' =>
        intro hnode
        cases result with
        | error message => exact hnode
        | ok id => exact ih _ hnode

theorem broadcastTo_carries (nodes : List NodeInfo) (ids : List TaskId)
    (h : w.Carries submission) :
    (broadcastTo inMemoryTransport func name submission nodes ids w).2.Carries submission := by
  apply broadcastTo_preserves (P := fun w => w.Carries submission)
  · intro node w h
    exact inMemoryTransport_carries h node func name
  · exact h

/-- What was submitted stays submitted. -/
theorem broadcastTo_made (w : World φ ω κ) (func : φ) (name : String)
    (submission : SubmissionOptions ω κ) (nodes : List NodeInfo) (ids : List TaskId) :
    w.made <+: (broadcastTo inMemoryTransport func name submission nodes ids w).2.made := by
  apply broadcastTo_preserves (P := fun w' => w.made <+: w'.made)
  · intro node w' h
    exact h.trans (inMemoryTransport_made w' node func name submission)
  · exact List.prefix_refl _

theorem broadcast_carries_iff (hd : d.InMemory) (h : w.Carries submission) :
    (d.broadcast func name submission w).2.Carries submission ↔ submission.dependencies = [] := by
  have hlocal := w.submit_carries .localExecutor func name submission
  unfold broadcast
  generalize w.submit .localExecutor func name submission.taskOptions submission.callback
    = placed at hlocal
  cases hsub : d.remoteSubmitter with
  | none => exact hlocal.trans (and_iff_right h)
  | some submitter =>
    obtain rfl := hd submitter hsub
    constructor
    · intro hall
      have hmade := (broadcastTo_made placed.2 func name submission d.nodes [placed.1]).subset
      exact (hlocal.mp fun p hp => hall p (hmade hp)).2
    · intro hdeps
      exact broadcastTo_carries _ _ (hlocal.mpr ⟨h, hdeps⟩)

/-- The task goes to a node: the policy finds a candidate, there is a submitter, and the node is
still reachable when it is looked at again. -/
def GoesRemote (d : DistributedExecutor φ ω κ) (reloaded : Bool) : Prop :=
  (∃ node ∈ d.nodes, node.Suits d.policy) ∧ d.remoteSubmitter.isSome = true ∧ reloaded = true

theorem submit_carries_iff (hd : d.InMemory) (reloaded : Bool) (h : w.Carries submission) :
    (d.submit reloaded func name submission w).2.1.Carries submission ↔
      submission.dependencies = [] ∨ d.GoesRemote reloaded := by
  have hlocal : (w.submit .localExecutor func name submission.taskOptions
      submission.callback).2.Carries submission ↔ submission.dependencies = [] :=
    (w.submit_carries ..).trans (and_iff_right h)
  have hcand := d.selectNode_isSome
  unfold submit GoesRemote
  by_cases hpolicy : d.policy = .broadcast
  · have hnone : ¬ ∃ node ∈ d.nodes, node.Suits d.policy := by
      rintro ⟨node, _, hsuits⟩
      rw [hpolicy] at hsuits
      exact hsuits
    have hall : (d.broadcast func name submission w).2.Carries submission ↔ _ :=
      broadcast_carries_iff hd h
    rw [if_pos hpolicy]
    revert hall
    cases d.broadcast func name submission w with
    | mk result w' =>
      intro hall
      cases result <;> simpa [hnone] using hall
  · rw [if_neg hpolicy]
    revert hcand
    cases d.selectNode with
    | mk candidate d' =>
      intro hcand
      cases candidate with
      | none =>
        have hnone : ¬ ∃ node ∈ d.nodes, node.Suits d.policy := fun he => by
          simpa using hcand.mpr he
        simpa [hnone] using hlocal
      | some node =>
        have hsome : ∃ node ∈ d.nodes, node.Suits d.policy := hcand.mp rfl
        cases hsub : d.remoteSubmitter with
        | none => simpa [hsome] using hlocal
        | some submitter =>
          cases reloaded with
          | false => simpa [hsome] using hlocal
          | true =>
            obtain rfl := hd submitter hsub
            have hremote := inMemoryTransport_carries h node func name
            simpa [hsome] using hremote

end DistributedExecutor

/-- **Which submissions keep their dependencies.** With the in-memory transport or no submitter,
`submit` hands on exactly the options it was given if they name no dependencies or the task goes to
a node, and `broadcast` if they name none. -/
theorem carries_options_iff (d : DistributedExecutor φ ω κ) (hd : d.InMemory) (reloaded : Bool)
    (func : φ) (name : String) (submission : SubmissionOptions ω κ)
    (nextTaskId : ExecutorRef → TaskId) :
    ((d.submit reloaded func name submission ⟨nextTaskId, []⟩).2.1.Carries submission ↔
      submission.dependencies = [] ∨ d.GoesRemote reloaded) ∧
    ((d.broadcast func name submission ⟨nextTaskId, []⟩).2.Carries submission ↔
      submission.dependencies = []) := by
  have hstart : World.Carries (⟨nextTaskId, []⟩ : World φ ω κ) submission := fun _ hp =>
    absurd hp List.not_mem_nil
  exact ⟨DistributedExecutor.submit_carries_iff hd reloaded hstart,
    DistributedExecutor.broadcast_carries_iff hd hstart⟩

/-- One reachable node, and whether `enable_in_memory_transport` was called. -/
def oneNode (transport : Bool) : DistributedExecutor Unit Unit Unit where
  policy := .localFirst
  remoteSubmitter := if transport then some inMemoryTransport else none
  roundRobinCursor := 0
  nodes := [{ address := "10.0.0.2", port := 7000, capacity := 4,
              remoteExecutor := some (.attached 0) }]

theorem oneNode_inMemory (transport : Bool) : (oneNode transport).InMemory := by
  intro submitter h
  cases transport with
  | false => exact absurd h (by simp [oneNode])
  | true => exact (Option.some.inj h).symm

/-- A submission that depends on task 1 arrives at the node with that dependency. -/
theorem carries_options_oneNode :
    ((oneNode true).submit true () "job" { dependencies := [1], taskOptions := (), callback := () }
      ⟨fun _ => 1, []⟩).2.1.Carries { dependencies := [1], taskOptions := (), callback := () } :=
  ((carries_options_iff (oneNode true) (oneNode_inMemory true) true () "job"
    { dependencies := [1], taskOptions := (), callback := () } fun _ => 1).1).mpr
    (.inr ⟨⟨_, List.mem_singleton_self _, rfl⟩, rfl, rfl⟩)

/-- Without a submitter it is made to the local executor, and there the dependency is gone. -/
theorem dependencies_dropped :
    ¬ ((oneNode false).submit true () "job"
        { dependencies := [1], taskOptions := (), callback := () } ⟨fun _ => 1, []⟩).2.1.Carries
        { dependencies := [1], taskOptions := (), callback := () } := by
  decide

end Distributed
end NexusTask
