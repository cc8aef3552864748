import NexusTask.Distributed.Routes
import NexusTask.Lib.Run

/-!
# The ids `DistributedExecutor` returns

Every executor numbers its own tasks. A run here is any sequence of calls of the interface, mixed
with submissions made directly to one of the executors; what the tasks do when they run is to make
such calls. `returned` is its history: the ids that `submit` returned, with the executor each came
from. On one executor no id comes twice. Over all of them the ids are distinct just as long as no
submission goes to an executor whose next id another one has returned already.
-/

set_option autoImplicit false

namespace NexusTask
namespace Distributed

open Transition

variable {φ ω κ : Type}

/-! ## The node table -/

def NodeInfo.isAt (address : String) (port : UInt16) (node : NodeInfo) : Bool :=
  node.address == address && node.port == port

/-- The first node at an address is changed, as in the loops that end at it. -/
def modifyNode (address : String) (port : UInt16) (f : NodeInfo → NodeInfo) :
    List NodeInfo → List NodeInfo
  | [] => []
  | node :: nodes =>
      if node.isAt address port then f node :: nodes
      else node :: modifyNode address port f nodes

namespace DistributedExecutor

variable (d : DistributedExecutor φ ω κ)

def addNode (address : String) (port : UInt16) (capacity : UInt64) : DistributedExecutor φ ω κ :=
  { d with nodes := d.nodes ++ [{ address, port, capacity }] }

def removeNode (address : String) (port : UInt16) : DistributedExecutor φ ω κ :=
  { d with nodes := d.nodes.filter fun node => !node.isAt address port }

/-- `capacity` is what the executor has pending and in flight; a node that is not there is added
with it. -/
def attachInMemoryExecutor (address : String) (port : UInt16) (k : Nat) (capacity : UInt64) :
    DistributedExecutor φ ω κ :=
  let nodes :=
    if d.nodes.any (·.isAt address port) then d.nodes
    else d.nodes ++ [{ address, port, capacity := max 1 capacity }]
  let attach node := { node with remoteExecutor := some (.attached k) }
  { d with nodes := modifyNode address port attach nodes }

def updateNodeMetrics (address : String) (port : UInt16) (inflight : UInt64) :
    DistributedExecutor φ ω κ :=
  let update node := { node with currentLoad := inflight }
  { d with nodes := modifyNode address port update d.nodes }

def markNodeUnreachable (address : String) (port : UInt16) : DistributedExecutor φ ω κ :=
  let mark node := { node with reachable := false }
  { d with nodes := modifyNode address port mark d.nodes }

def setPolicy (policy : DistributionPolicy) : DistributedExecutor φ ω κ := { d with policy }

def enableInMemoryTransport : DistributedExecutor φ ω κ :=
  { d with remoteSubmitter := some inMemoryTransport }

end DistributedExecutor

/-! ## Runs -/

inductive ClusterOp (φ ω κ : Type)
  | addNode (address : String) (port : UInt16) (capacity : UInt64)
  | removeNode (address : String) (port : UInt16)
  | attachInMemoryExecutor (address : String) (port : UInt16) (k : Nat) (capacity : UInt64)
  | updateNodeMetrics (address : String) (port : UInt16) (inflight : UInt64)
  | markNodeUnreachable (address : String) (port : UInt16)
  | setPolicy (policy : DistributionPolicy)
  | enableInMemoryTransport
  | submit (reloaded : Bool) (func : φ) (name : String) (submission : SubmissionOptions ω κ)
  | submitTo (e : ExecutorRef) (func : φ) (name : String) (submission : SubmissionOptions ω κ)

/-- The in-memory transport throws at a reachable node without an executor. -/
def NodeInfo.isStranded (node : NodeInfo) : Bool := node.reachable && node.remoteExecutor.isNone

/-- The executor whose id `submit` returns; `none` when it throws, because it comes to a node
without an executor. -/
def DistributedExecutor.executorFor (d : DistributedExecutor φ ω κ) (reloaded : Bool) :
    Option ExecutorRef :=
  if d.policy = .broadcast then
    if d.remoteSubmitter.isSome && d.nodes.any (·.isStranded) then none else some .localExecutor
  else match d.selectNode.1 with
    | none => some .localExecutor
    | some node =>
        if d.remoteSubmitter.isSome && reloaded then node.remoteExecutor else some .localExecutor

structure Cluster (φ ω κ : Type) where
  executor : DistributedExecutor φ ω κ
  world : World φ ω κ
  returned : List (TaskId × Option ExecutorRef)

/-- A `DistributedExecutor` just constructed, and executors that may have been in use. -/
def Cluster.start (nextTaskId : ExecutorRef → TaskId) : Cluster φ ω κ where
  executor := { policy := .localFirst, remoteSubmitter := none, roundRobinCursor := 0, nodes := [] }
  world := { nextTaskId, made := [] }
  returned := []

def clusterStep (s : Cluster φ ω κ) : ClusterOp φ ω κ → Option (Cluster φ ω κ)
  | .addNode address port capacity =>
      some { s with executor := s.executor.addNode address port capacity }
  | .removeNode address port => some { s with executor := s.executor.removeNode address port }
  | .attachInMemoryExecutor address port k capacity =>
      some { s with executor := s.executor.attachInMemoryExecutor address port k capacity }
  | .updateNodeMetrics address port inflight =>
      some { s with executor := s.executor.updateNodeMetrics address port inflight }
  | .markNodeUnreachable address port =>
      some { s with executor := s.executor.markNodeUnreachable address port }
  | .setPolicy policy => some { s with executor := s.executor.setPolicy policy }
  | .enableInMemoryTransport => some { s with executor := s.executor.enableInMemoryTransport }
  | .submit reloaded func name submission =>
      let (result, w', d') := s.executor.submit reloaded func name submission s.world
      some { executor := d', world := w', returned :=
        match result with
        | .ok id => s.returned ++ [(id, s.executor.executorFor reloaded)]
        | .error _ => s.returned }
  | .submitTo e func name submission =>
      some { s with world := (s.world.submitInternal e func name submission).2 }

/-- The next id of the executor a submission goes to was not returned from another one. -/
def freshId (s : Cluster φ ω κ) : ClusterOp φ ω κ → Prop
  | .submit reloaded _ _ _ => ∀ e, s.executor.executorFor reloaded = some e →
      ∀ p ∈ s.returned, p.2 ≠ some e → p.1 ≠ s.world.nextTaskId e
  | _ => True

/-! ## What `submit` does to the counters -/

/-- No counter went back. -/
def World.Advances (w w' : World φ ω κ) : Prop := ∀ e, w.nextTaskId e ≤ w'.nextTaskId e

namespace World.Advances

variable {w w₁ w₂ : World φ ω κ}

theorem refl (w : World φ ω κ) : w.Advances w := fun _ => Nat.le_refl _

theorem trans (h : w.Advances w₁) (h' : w₁.Advances w₂) : w.Advances w₂ :=
  fun e => Nat.le_trans (h e) (h' e)

end World.Advances

/-- What a call that may return an id comes to: it took the next id of `placed` and used it up, or
it threw; and no counter went back. -/
structure Takes (w : World φ ω κ) (placed : Option ExecutorRef) (result : Except String TaskId)
    (w' : World φ ω κ) : Prop where
  advances : w.Advances w'
  ok : ∀ e, placed = some e → result = .ok (w.nextTaskId e) ∧ w.nextTaskId e < w'.nextTaskId e
  error : placed = none → ∃ message, result = .error message

theorem World.submitInternal_takes (w : World φ ω κ) (e : ExecutorRef) (func : φ) (name : String)
    (submission : SubmissionOptions ω κ) :
    Takes w (some e) (.ok (w.submitInternal e func name submission).1)
      (w.submitInternal e func name submission).2 := by
  refine ⟨fun e' => ?_, fun e' he => ?_, (nomatch ·)⟩
  · show w.nextTaskId e' ≤ Function.update w.nextTaskId e (w.nextTaskId e + 1) e'
    by_cases h : e' = e
    · subst h
      rw [Function.update_self]
      exact Nat.le_succ _
    · rw [Function.update_of_ne h]
  · obtain rfl := Option.some.inj he
    refine ⟨rfl, ?_⟩
    show w.nextTaskId e < Function.update w.nextTaskId e (w.nextTaskId e + 1) e
    rw [Function.update_self]
    exact Nat.lt_succ_self _

theorem inMemoryTransport_takes (w : World φ ω κ) (node : NodeInfo) (func : φ) (name : String)
    (submission : SubmissionOptions ω κ) :
    Takes w node.remoteExecutor (inMemoryTransport node func name submission w).1
      (inMemoryTransport node func name submission w).2 := by
  unfold inMemoryTransport
  cases node.remoteExecutor with
  | none => exact ⟨.refl w, (fun _ h => nomatch h), fun _ => ⟨_, rfl⟩⟩
  | some e =>
    dsimp only
    split
    · exact w.submitInternal_takes e func name _
    · exact w.submitInternal_takes e func name _

namespace DistributedExecutor

variable {d : DistributedExecutor φ ω κ} (func : φ) (name : String)
  (submission : SubmissionOptions ω κ)

/-- The loop of `broadcast` leaves the ids it has at the front, and throws at a node without an
executor. -/
theorem broadcastTo_takes (nodes : List NodeInfo) (ids : List TaskId) (w : World φ ω κ) :
    w.Advances (broadcastTo inMemoryTransport func name submission nodes ids w).2 ∧
    (nodes.any (·.isStranded) = true → ∃ message,
      (broadcastTo inMemoryTransport func name submission nodes ids w).1 = .error message) ∧
    (nodes.any (·.isStranded) = false → ∃ more,
      (broadcastTo inMemoryTransport func name submission nodes ids w).1 = .ok (ids ++ more)) := by
  induction nodes generalizing ids w with
  | nil => exact ⟨.refl w, (nomatch ·), fun _ => ⟨[], by simp [broadcastTo]⟩⟩
  | cons node nodes ih =>
    unfold broadcastTo
    rw [List.any_cons]
    cases hreach : node.reachable with
    | false =>
      have hnot : node.isStranded = false := by simp [NodeInfo.isStranded, hreach]
      rw [hnot]
      exact ih ids w
    | true =>
      have hnode := inMemoryTransport_takes w node func name submission
      revert hnode
      cases inMemoryTransport node func name submission w with
      | mk result w' =>
        intro hnode
        cases hexec : node.remoteExecutor with
        | none =>
          have hstranded : node.isStranded = true := by simp [NodeInfo.isStranded, hreach, hexec]
          obtain ⟨message, rfl⟩ := hnode.error hexec
          rw [hstranded]
          exact ⟨hnode.advances, fun _ => ⟨message, rfl⟩, (nomatch ·)⟩
        | some e =>
          have hnot : node.isStranded = false := by simp [NodeInfo.isStranded, hexec]
          obtain ⟨rfl, _⟩ := hnode.ok e hexec
          obtain ⟨hadvances, herror, hok⟩ := ih (ids ++ [w.nextTaskId e]) w'
          rw [hnot]
          refine ⟨hnode.advances.trans hadvances, herror, fun hall => ?_⟩
          obtain ⟨more, hmore⟩ := hok hall
          exact ⟨w.nextTaskId e :: more, by simpa using hmore⟩

theorem broadcast_takes (hd : d.InMemory) (w : World φ ω κ) :
    Takes w
      (if d.remoteSubmitter.isSome && d.nodes.any (·.isStranded) then none
        else some .localExecutor)
      ((d.broadcast func name submission w).1.map (·.headD 0))
      (d.broadcast func name submission w).2 := by
  have hlocal := w.submitInternal_takes .localExecutor func name
    { dependencies := [], taskOptions := submission.taskOptions, callback := submission.callback }
  unfold broadcast
  cases hsub : d.remoteSubmitter with
  | none => exact hlocal
  | some submitter =>
    obtain rfl := hd submitter hsub
    obtain ⟨hadvances, herror, hok⟩ := broadcastTo_takes func name submission d.nodes
      [w.nextTaskId .localExecutor]
      (w.submit .localExecutor func name submission.taskOptions submission.callback).2
    have huses := (hlocal.ok _ rfl).2
    refine ⟨hlocal.advances.trans hadvances, fun e he => ?_, fun hnone => ?_⟩
    · cases hstranded : d.nodes.any (·.isStranded) with
      | true => simp [hstranded] at he
      | false =>
        obtain rfl : ExecutorRef.localExecutor = e := by simpa [hstranded] using he
        obtain ⟨more, hmore⟩ := hok hstranded
        exact ⟨congrArg (Except.map (·.headD 0)) hmore, Nat.lt_of_lt_of_le huses (hadvances _)⟩
    · cases hstranded : d.nodes.any (·.isStranded) with
      | false => simp [hstranded] at hnone
      | true =>
        obtain ⟨message, hmessage⟩ := herror hstranded
        exact ⟨message, congrArg (Except.map (·.headD 0)) hmessage⟩

theorem submit_takes (hd : d.InMemory) (reloaded : Bool) (w : World φ ω κ) :
    Takes w (d.executorFor reloaded) (d.submit reloaded func name submission w).1
      (d.submit reloaded func name submission w).2.1 := by
  unfold submit executorFor
  by_cases hpolicy : d.policy = .broadcast
  · rw [if_pos hpolicy, if_pos hpolicy]
    have hall := broadcast_takes func name submission hd w
    revert hall
    cases d.broadcast func name submission w with
    | mk result w' => cases result <;> exact fun hall => hall
  · rw [if_neg hpolicy, if_neg hpolicy]
    cases d.selectNode with
    | mk candidate d' =>
      cases candidate with
      | none => exact w.submitInternal_takes ..
      | some node =>
        cases hsub : d.remoteSubmitter with
        | none => exact w.submitInternal_takes ..
        | some submitter =>
          obtain rfl := hd submitter hsub
          cases reloaded with
          | false => exact w.submitInternal_takes ..
          | true => exact inMemoryTransport_takes ..

/-- The submitter stays what it was. -/
theorem submit_remoteSubmitter (reloaded : Bool) (w : World φ ω κ) :
    (d.submit reloaded func name submission w).2.2.remoteSubmitter = d.remoteSubmitter := by
  have hselect : d.selectNode.2.remoteSubmitter = d.remoteSubmitter := by
    unfold selectNode
    split
    · rfl
    · cases d.policy with
      | roundRobin =>
        dsimp only
        cases nextInTurn d.roundRobinCursor d.nodes (List.range d.nodes.length) <;> rfl
      | _ => rfl
  unfold submit
  by_cases hpolicy : d.policy = .broadcast
  · rw [if_pos hpolicy]
    cases d.broadcast func name submission w with
    | mk result w' => cases result <;> rfl
  · rw [if_neg hpolicy]
    revert hselect
    cases d.selectNode with
    | mk candidate d' =>
      intro hselect
      cases candidate with
      | none => exact hselect
      | some node => cases hsub : d.remoteSubmitter <;> cases reloaded <;> exact hselect.trans hsub

end DistributedExecutor

/-! ## Distinct ids -/

/-- Every id returned was taken from the executor it is recorded with, and from there only once. -/
structure Issued (s : Cluster φ ω κ) : Prop where
  inMemory : s.executor.InMemory
  below : ∀ p ∈ s.returned, ∃ e, p.2 = some e ∧ p.1 < s.world.nextTaskId e
  nodup : s.returned.Nodup

theorem issued_start (nextTaskId : ExecutorRef → TaskId) :
    Issued (Cluster.start nextTaskId : Cluster φ ω κ) where
  inMemory _ h := nomatch h
  below _ h := absurd h List.not_mem_nil
  nodup := List.nodup_nil

namespace Issued

variable {s : Cluster φ ω κ}

/-- A call that returns no id. -/
theorem frame (h : Issued s) {d : DistributedExecutor φ ω κ} {w : World φ ω κ} (hd : d.InMemory)
    (hw : s.world.Advances w) : Issued { s with executor := d, world := w } where
  inMemory := hd
  below p hp := by
    obtain ⟨e, he, hlt⟩ := h.below p hp
    exact ⟨e, he, Nat.lt_of_lt_of_le hlt (hw e)⟩
  nodup := h.nodup

/-- The executor's next id is none of those it returned before. -/
theorem next_notMem (h : Issued s) (e : ExecutorRef) :
    (s.world.nextTaskId e, some e) ∉ s.returned := by
  intro hmem
  obtain ⟨e', he, hlt⟩ := h.below _ hmem
  obtain rfl := Option.some.inj he
  exact Nat.lt_irrefl _ hlt

theorem submit (h : Issued s) {e : ExecutorRef} {d : DistributedExecutor φ ω κ} {w : World φ ω κ}
    (hd : d.InMemory) (hw : s.world.Advances w) (huses : s.world.nextTaskId e < w.nextTaskId e) :
    Issued { executor := d, world := w
             returned := s.returned ++ [(s.world.nextTaskId e, some e)] } where
  inMemory := hd
  below p hp := by
    rcases List.mem_append.mp hp with hp | hp
    · exact (h.frame hd hw).below p hp
    · obtain rfl := List.mem_singleton.mp hp
      exact ⟨e, rfl, huses⟩
  nodup := by
    refine List.nodup_append.mpr ⟨h.nodup, List.nodup_singleton _, ?_⟩
    intro p hp q hq heq
    obtain rfl := List.mem_singleton.mp hq
    exact h.next_notMem e (heq ▸ hp)

end Issued

/-- The id taken is new if no other executor returned it: this one did not. -/
theorem Issued.fresh_iff {s : Cluster φ ω κ} (h : Issued s) (e : ExecutorRef) :
    s.world.nextTaskId e ∉ s.returned.map Prod.fst ↔
      ∀ p ∈ s.returned, p.2 ≠ some e → p.1 ≠ s.world.nextTaskId e := by
  constructor
  · intro hnew p hp _ heq
    exact hnew (heq ▸ List.mem_map_of_mem hp)
  · intro hothers hmem
    obtain ⟨p, hp, heq⟩ := List.mem_map.mp hmem
    by_cases hsame : p.2 = some e
    · exact h.next_notMem e (by rwa [← heq, ← hsame])
    · exact hothers p hp hsame heq

/-- A step keeps the record, and keeps the ids distinct exactly if the id it takes is fresh. -/
theorem issued_and_fresh_iff {s s' : Cluster φ ω κ} {op : ClusterOp φ ω κ} (h : Issued s)
    (hstep : clusterStep s op = some s') :
    Issued s' ∧
      ((s'.returned.map Prod.fst).Nodup ↔ (s.returned.map Prod.fst).Nodup ∧ freshId s op) := by
  have hquiet : ∀ {d : DistributedExecutor φ ω κ} {w : World φ ω κ}, d.InMemory →
      s.world.Advances w → freshId s op →
      Issued { s with executor := d, world := w } ∧
        ((s.returned.map Prod.fst).Nodup ↔ (s.returned.map Prod.fst).Nodup ∧ freshId s op) := by
    intro d w hd hw hfresh
    exact ⟨h.frame hd hw, (and_iff_left hfresh).symm⟩
  cases op with
  | submit reloaded func name submission =>
    have htakes := DistributedExecutor.submit_takes func name submission h.inMemory reloaded s.world
    have hsame : (s.executor.submit reloaded func name submission s.world).2.2.remoteSubmitter
        = s.executor.remoteSubmitter :=
      DistributedExecutor.submit_remoteSubmitter func name submission reloaded s.world
    simp only [clusterStep] at hstep
    obtain rfl := Option.some.inj hstep
    revert htakes hsame
    cases s.executor.submit reloaded func name submission s.world with
    | mk result rest =>
      obtain ⟨w', d'⟩ := rest
      intro htakes hsame
      have hd' : d'.InMemory := fun submitter hsub => h.inMemory submitter (hsame ▸ hsub)
      cases hplaced : s.executor.executorFor reloaded with
      | none =>
        obtain ⟨message, rfl⟩ := htakes.error hplaced
        refine hquiet hd' htakes.advances ?_
        intro e he
        exact absurd (hplaced.symm.trans he) (by simp)
      | some e =>
        obtain ⟨rfl, huses⟩ := htakes.ok e hplaced
        refine ⟨h.submit hd' htakes.advances huses, ?_⟩
        have hfresh : freshId s (.submit reloaded func name submission) ↔
            s.world.nextTaskId e ∉ s.returned.map Prod.fst := by
          rw [h.fresh_iff]
          simp only [freshId, hplaced, Option.some.injEq, forall_eq']
        show ((s.returned ++ [(s.world.nextTaskId e, some e)]).map Prod.fst).Nodup ↔ _
        rw [hfresh, List.map_append, List.map_singleton, ← List.concat_eq_append,
          List.nodup_concat]
        exact and_comm
  | submitTo e func name submission =>
    exact Option.some.inj hstep ▸ hquiet h.inMemory
      (s.world.submitInternal_takes e func name submission).advances trivial
  | enableInMemoryTransport =>
    refine Option.some.inj hstep ▸ hquiet ?_ (.refl _) trivial
    intro submitter hsub
    exact (Option.some.inj hsub).symm
  | _ => exact Option.some.inj hstep ▸ hquiet h.inMemory (.refl _) trivial

/-- **The ids an executor's submissions are returned are pairwise distinct**, and those of all
submissions are exactly as long as none of these goes to an executor whose next id another one has
returned. -/
theorem ids_distinct {nextTaskId : ExecutorRef → TaskId} {ops : List (ClusterOp φ ω κ)}
    {s : Cluster φ ω κ} (run : Run clusterStep free (.start nextTaskId) ops s) :
    s.returned.Nodup ∧ (∀ p ∈ s.returned, p.2.isSome = true) ∧
      ((s.returned.map Prod.fst).Nodup ↔
        Run clusterStep freshId (.start nextTaskId) ops s) := by
  have hissued : Preserved clusterStep free fun s : Cluster φ ω κ => Issued s :=
    fun _ _ _ h _ hstep => (issued_and_fresh_iff h hstep).1
  have hs : Issued s := run.invariant hissued (issued_start nextTaskId)
  refine ⟨hs.nodup, ?_, ?_⟩
  · intro p hp
    obtain ⟨e, he, _⟩ := hs.below p hp
    exact Option.isSome_iff_exists.mpr ⟨e, he⟩
  · exact run.exact_iff hissued (fun _ _ _ h hstep => (issued_and_fresh_iff h hstep).2)
      (issued_start nextTaskId) List.nodup_nil

/-- Two submissions to the node, the second of them dependent on the first. -/
theorem ids_distinct_node :
    ∃ s : Cluster Unit Unit Unit, Run clusterStep free (.start fun _ => 1)
        [.addNode "10.0.0.2" 7000 4, .attachInMemoryExecutor "10.0.0.2" 7000 0 0,
         .enableInMemoryTransport, .submit true () "a" ⟨[], (), ()⟩,
         .submit true () "b" ⟨[1], (), ()⟩] s ∧ s.returned.Nodup := by
  have hrun : Run clusterStep free (.start fun _ => 1 : Cluster Unit Unit Unit)
      [.addNode "10.0.0.2" 7000 4, .attachInMemoryExecutor "10.0.0.2" 7000 0 0,
       .enableInMemoryTransport, .submit true () "a" ⟨[], (), ()⟩,
       .submit true () "b" ⟨[1], (), ()⟩] _ := Run.of_isSome (by decide)
  exact ⟨_, hrun, (ids_distinct hrun).1⟩

/-- A task is submitted while there is no node, and another one once there is one: both are 1. -/
theorem ids_repeated :
    ∃ s : Cluster Unit Unit Unit, Run clusterStep free (.start fun _ => 1)
        [.submit true () "a" ⟨[], (), ()⟩, .addNode "10.0.0.2" 7000 4,
         .attachInMemoryExecutor "10.0.0.2" 7000 0 0, .enableInMemoryTransport,
         .submit true () "b" ⟨[], (), ()⟩] s ∧
      s.returned.map Prod.fst = [1, 1] ∧ ¬ (s.returned.map Prod.fst).Nodup :=
  ⟨_, Run.of_isSome (by decide), by decide, by decide⟩

end Distributed
end NexusTask
