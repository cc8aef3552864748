import NexusTask.Distributed.Turns

/-!
# Loads and capacities

`current_load` is what a node has reported about itself; `submit` reads it and does not write it. So
a node is handed tasks as long as its last report is below its capacity, however many it has been
handed since, and none once the report is at or over it.
-/

set_option autoImplicit false

namespace NexusTask
namespace Distributed

open Transition

variable {φ ω κ : Type}

/-! ## Where a submission is routed -/

namespace DistributedExecutor

variable (d : DistributedExecutor φ ω κ)

/-- The node that `submit` hands the task to, if it does not go to the local executor. -/
def routedTo (reloaded : Bool) : Option Nat :=
  if d.remoteSubmitter.isSome && reloaded then d.selectIndex else none

variable {d}

theorem leastLoaded_hasRoom {nodes : List NodeInfo} (entries : List (NodeInfo × Nat))
    (hentries : ∀ entry ∈ entries, nodes[entry.2]? = some entry.1) (load : UInt64)
    (candidate : Option Nat) (hcandidate : ∀ i ∈ candidate, hasRoomAt nodes i = true) :
    ∀ i ∈ (entries.foldl lessLoadedAt (load, candidate)).2, hasRoomAt nodes i = true := by
  induction entries generalizing load candidate with
  | nil => exact hcandidate
  | cons entry entries ih =>
    have hrest := ih fun e he => hentries e (.tail _ he)
    rw [List.foldl_cons]
    unfold lessLoadedAt
    split
    next hless =>
      apply hrest
      intro i hi
      obtain rfl := Option.some.inj hi
      rw [Bool.and_eq_true, decide_eq_true_eq] at hless
      simp [hasRoomAt, hentries entry List.mem_cons_self, NodeInfo.available, hless]
    next => exact hrest _ _ hcandidate

/-- The two policies that look at loads. -/
def LooksAtLoads (d : DistributedExecutor φ ω κ) : Prop :=
  d.policy = .leastLoaded ∨ d.policy = .roundRobin

instance : Decidable d.LooksAtLoads := inferInstanceAs (Decidable (_ ∨ _))

/-- They pick a node with room. -/
theorem selectIndex_hasRoom (hpolicy : d.LooksAtLoads) {i : Nat} (h : d.selectIndex = some i) :
    hasRoomAt d.nodes i = true := by
  unfold selectIndex at h
  rcases hpolicy with hpolicy | hpolicy
  · rw [hpolicy] at h
    exact leastLoaded_hasRoom d.nodes.zipIdx (fun entry he => List.mem_zipIdx_iff_getElem?.mp he)
      _ none (fun _ hi => absurd hi (by simp)) i h
  · rw [hpolicy] at h
    dsimp only at h
    rw [nextIndex_eq_taken] at h
    exact RoundRobin.taken_meets h

/-- `submit` hands the task to the node it is routed to, and otherwise to the local executor. -/
theorem submit_eq_routedTo (hpolicy : d.policy ≠ .broadcast) (reloaded : Bool) (func : φ)
    (name : String) (submission : SubmissionOptions ω κ) (w : World φ ω κ) :
    d.submit reloaded func name submission w =
      match (d.routedTo reloaded).bind (d.nodes[·]?), d.remoteSubmitter with
      | some node, some submitter =>
          ((submitter node func name submission w).1, (submitter node func name submission w).2,
            d.selectNode.2)
      | _, _ =>
          (.ok (w.nextTaskId .localExecutor),
            (w.submit .localExecutor func name submission.taskOptions submission.callback).2,
            d.selectNode.2) := by
  unfold submit routedTo
  rw [if_neg hpolicy, selectNode_eq]
  cases hnode : d.selectIndex.bind (d.nodes[·]?) with
  | none =>
    cases hsub : d.remoteSubmitter with
    | none => rfl
    | some submitter => cases reloaded <;> simp [hnode] <;> rfl
  | some node =>
    cases hsub : d.remoteSubmitter with
    | none => rfl
    | some submitter =>
      cases reloaded with
      | false => rfl
      | true => simp [hnode]

end DistributedExecutor

/-! ## Runs -/

/-- The cluster, and for every index of its table the load last reported, and how many tasks have
been routed there since. -/
structure Loads (φ ω κ : Type) where
  cluster : Cluster φ ω κ
  reported : Nat → UInt64
  routed : Nat → Nat

/-- What was reported before the run is what the table says. A node that `add_node` puts there has
reported nothing, and its load is 0. -/
def Loads.start (cluster : Cluster φ ω κ) : Loads φ ω κ where
  cluster
  reported i := (cluster.executor.nodes[i]?.map (·.currentLoad)).getD 0
  routed _ := 0

def loadsStep (s : Loads φ ω κ) (op : ClusterOp φ ω κ) : Option (Loads φ ω κ) :=
  (clusterStep s.cluster op).map fun cluster =>
    match op with
    | .submit reloaded _ _ _ =>
        match s.cluster.executor.routedTo reloaded with
        | some i => { s with cluster, routed := Function.update s.routed i (s.routed i + 1) }
        | none => { s with cluster }
    | .updateNodeMetrics address port inflight =>
        match s.cluster.executor.nodes.findIdx? (·.isAt address port) with
        | some i =>
            { cluster
              reported := Function.update s.reported i inflight
              routed := Function.update s.routed i 0 }
        | none => { s with cluster }
    | _ => { s with cluster }

/-- Submissions and reports; the policy may change from one of the two to the other. -/
def submitsAndReports (_ : Loads φ ω κ) : ClusterOp φ ω κ → Prop
  | .submit .. | .updateNodeMetrics .. => True
  | .setPolicy policy => policy = .leastLoaded ∨ policy = .roundRobin
  | _ => False

instance : ∀ (s : Loads φ ω κ) (op : ClusterOp φ ω κ), Decidable (submitsAndReports s op)
  | _, .submit .. => inferInstanceAs (Decidable True)
  | _, .updateNodeMetrics .. => inferInstanceAs (Decidable True)
  | _, .setPolicy _ => inferInstanceAs (Decidable (_ ∨ _))
  | _, .addNode .. => inferInstanceAs (Decidable False)
  | _, .removeNode .. => inferInstanceAs (Decidable False)
  | _, .attachInMemoryExecutor .. => inferInstanceAs (Decidable False)
  | _, .markNodeUnreachable .. => inferInstanceAs (Decidable False)
  | _, .enableInMemoryTransport => inferInstanceAs (Decidable False)
  | _, .submitTo .. => inferInstanceAs (Decidable False)

/-- The tasks routed to a node since its last report fit on top of the load reported. -/
def Loads.WithinCapacity (s : Loads φ ω κ) : Prop :=
  ∀ i node, s.cluster.executor.nodes[i]? = some node →
    (s.reported i).toNat + s.routed i ≤ max node.capacity.toNat (s.reported i).toNat

/-- What the table knows of the loads: the last report, and nothing of what was routed since. -/
structure Tracked (s : Loads φ ω κ) : Prop where
  looks : s.cluster.executor.LooksAtLoads
  load : ∀ i node, s.cluster.executor.nodes[i]? = some node → node.currentLoad = s.reported i
  rests : ∀ i node, s.cluster.executor.nodes[i]? = some node → node.capacity ≤ s.reported i →
    s.routed i = 0

theorem tracked_start {cluster : Cluster φ ω κ} (h : cluster.executor.LooksAtLoads) :
    Tracked (.start cluster) where
  looks := h
  load i node hnode := by
    have hnode' : cluster.executor.nodes[i]? = some node := hnode
    simp [Loads.start, hnode']
  rests _ _ _ _ := rfl

/-- Only the first node at the address is changed. -/
theorem modifyNode_getElem? (address : String) (port : UInt16) (f : NodeInfo → NodeInfo)
    (nodes : List NodeInfo) (i : Nat) :
    (modifyNode address port f nodes)[i]? =
      if nodes.findIdx? (·.isAt address port) = some i then nodes[i]?.map f else nodes[i]? := by
  induction nodes generalizing i with
  | nil => simp [modifyNode]
  | cons node nodes ih =>
    unfold modifyNode
    rw [List.findIdx?_cons]
    by_cases hat : node.isAt address port = true
    · cases i <;> simp [hat]
    · cases i with
      | zero => simp [hat]
      | succ i => simpa [hat] using ih i

namespace Tracked

variable {s : Loads φ ω κ}

/-- A node that a task is routed to has last reported less than its capacity. -/
theorem below_capacity (h : Tracked s) {reloaded : Bool} {i : Nat}
    (hrouted : s.cluster.executor.routedTo reloaded = some i) :
    ∃ node, s.cluster.executor.nodes[i]? = some node ∧ node.reachable = true ∧
      s.reported i < node.capacity := by
  have hindex : s.cluster.executor.selectIndex = some i := by
    unfold DistributedExecutor.routedTo at hrouted
    split at hrouted
    · exact hrouted
    · exact absurd hrouted (by simp)
  have hroom := DistributedExecutor.selectIndex_hasRoom h.looks hindex
  obtain ⟨node, hnode, havailable⟩ := (Option.any_eq_true ..).mp hroom
  simp only [NodeInfo.available, Bool.and_eq_true, decide_eq_true_eq] at havailable
  exact ⟨node, hnode, havailable.1, h.load i node hnode ▸ havailable.2⟩

theorem ne_broadcast (h : Tracked s) : s.cluster.executor.policy ≠ .broadcast := by
  rcases h.looks with hpolicy | hpolicy <;> simp [hpolicy]

/-- A submission leaves the table as it is, and goes to no node that is full. -/
theorem submit (h : Tracked s) {reloaded : Bool} {func : φ} {name : String}
    {submission : SubmissionOptions ω κ} {s' : Loads φ ω κ}
    (hstep : loadsStep s (.submit reloaded func name submission) = some s') : Tracked s' := by
  obtain ⟨cluster, hcluster, rfl⟩ := Option.map_eq_some_iff.mp hstep
  have hafter : cluster.executor = s.cluster.executor.selectNode.2 := by
    have hsubmit := DistributedExecutor.submit_eq_routedTo h.ne_broadcast reloaded func name
      submission s.cluster.world
    obtain rfl := Option.some.inj hcluster
    show (s.cluster.executor.submit reloaded func name submission s.cluster.world).2.2 = _
    rw [hsubmit]
    split <;> rfl
  rw [DistributedExecutor.selectNode_eq] at hafter
  have hlooks : cluster.executor.LooksAtLoads := hafter ▸ h.looks
  have hnodes : cluster.executor.nodes = s.cluster.executor.nodes := hafter ▸ rfl
  cases hrouted : s.cluster.executor.routedTo reloaded with
  | none =>
    simp only [hrouted]
    exact ⟨hlooks, fun i node hi => h.load i node (hnodes ▸ hi),
      fun i node hi => h.rests i node (hnodes ▸ hi)⟩
  | some picked =>
    simp only [hrouted]
    refine ⟨hlooks, fun i node hi => h.load i node (hnodes ▸ hi), ?_⟩
    intro i node hi hfull
    have hnode : s.cluster.executor.nodes[i]? = some node := hnodes ▸ hi
    have hne : i ≠ picked := by
      rintro rfl
      obtain ⟨node', hnode', _, hlt⟩ := h.below_capacity hrouted
      obtain rfl := Option.some.inj (hnode.symm.trans hnode')
      exact UInt64.not_lt.mpr hfull hlt
    show Function.update s.routed picked _ i = 0
    rw [Function.update_of_ne hne]
    exact h.rests i node hnode hfull

/-- A report is what the first node at the address has as its load from then on. -/
theorem report (h : Tracked s) {address : String} {port : UInt16} {inflight : UInt64}
    {s' : Loads φ ω κ} (hstep : loadsStep s (.updateNodeMetrics address port inflight) = some s') :
    Tracked s' := by
  obtain ⟨cluster, hcluster, rfl⟩ := Option.map_eq_some_iff.mp hstep
  obtain rfl := Option.some.inj hcluster
  have hnodes := modifyNode_getElem? address port (fun node => { node with currentLoad := inflight })
    s.cluster.executor.nodes
  cases hfirst : s.cluster.executor.nodes.findIdx? (·.isAt address port) with
  | none =>
    rw [hfirst] at hnodes
    simp only [hfirst]
    exact ⟨h.looks, fun i node hi => h.load i node ((hnodes i).symm.trans hi),
      fun i node hi => h.rests i node ((hnodes i).symm.trans hi)⟩
  | some first =>
    rw [hfirst] at hnodes
    simp only [hfirst]
    have hcases : ∀ {i node}, (modifyNode address port
        (fun node => { node with currentLoad := inflight }) s.cluster.executor.nodes)[i]?
          = some node →
        i = first ∧ node.currentLoad = inflight ∨
          i ≠ first ∧ s.cluster.executor.nodes[i]? = some node := by
      intro i node hi
      rw [hnodes] at hi
      by_cases heq : i = first
      · rw [if_pos (by rw [heq])] at hi
        obtain ⟨old, _, rfl⟩ := Option.map_eq_some_iff.mp hi
        exact .inl ⟨heq, rfl⟩
      · rw [if_neg (by simpa [eq_comm] using heq)] at hi
        exact .inr ⟨heq, hi⟩
    refine ⟨h.looks, fun i node hi => ?_, fun i node hi hfull => ?_⟩
    · show _ = Function.update s.reported first inflight i
      rcases hcases hi with ⟨rfl, hload⟩ | ⟨hne, hold⟩
      · rw [Function.update_self, hload]
      · rw [Function.update_of_ne hne]
        exact h.load i node hold
    · show Function.update s.routed first 0 i = 0
      rcases hcases hi with ⟨rfl, _⟩ | ⟨hne, hold⟩
      · exact Function.update_self ..
      · have hfull' : node.capacity ≤ Function.update s.reported first inflight i := hfull
        rw [Function.update_of_ne hne] at hfull' ⊢
        exact h.rests i node hold hfull'

end Tracked

theorem tracked_step : Preserved loadsStep submitsAndReports
    fun s : Loads φ ω κ => Tracked s := by
  intro s op s' h hok hstep
  cases op with
  | submit => exact h.submit hstep
  | updateNodeMetrics => exact h.report hstep
  | setPolicy policy =>
    obtain ⟨cluster, hcluster, rfl⟩ := Option.map_eq_some_iff.mp hstep
    obtain rfl := Option.some.inj hcluster
    exact ⟨hok, h.load, h.rests⟩
  | _ => exact absurd hok id

/-- **Routed below capacity.** In every run of submissions under `LeastLoaded` or `RoundRobin` and
of reports, a task is routed to a node only while the load the node has last reported is below its
capacity; a node that has reported as much as its capacity or more gets no task until it reports
again. -/
theorem routed_below_capacity {cluster : Cluster φ ω κ} (hpolicy : cluster.executor.LooksAtLoads)
    {ops : List (ClusterOp φ ω κ)} {s : Loads φ ω κ}
    (run : Run loadsStep submitsAndReports (.start cluster) ops s) :
    (∀ reloaded i, s.cluster.executor.routedTo reloaded = some i →
      ∃ node, s.cluster.executor.nodes[i]? = some node ∧ node.reachable = true ∧
        s.reported i < node.capacity) ∧
    ∀ i node, s.cluster.executor.nodes[i]? = some node → node.capacity ≤ s.reported i →
      s.routed i = 0 := by
  have h : Tracked s := run.invariant tracked_step (tracked_start hpolicy)
  exact ⟨fun _ _ => h.below_capacity, h.rests⟩

/-- A node for one task, with an executor to run it. -/
def oneSlot : Cluster Unit Unit Unit where
  executor :=
    { policy := .leastLoaded, remoteSubmitter := some inMemoryTransport, roundRobinCursor := 0
      nodes := [{ address := "10.0.0.2", port := 7000, capacity := 1,
                  remoteExecutor := some (.attached 0) }] }
  world := { nextTaskId := fun _ => 1, made := [] }
  returned := []

/-- It reports that it is full after the first task, and a second one does not go there. -/
theorem routed_below_capacity_oneSlot :
    ∃ s, Run loadsStep submitsAndReports (.start oneSlot)
        [.submit true () "a" ⟨[], (), ()⟩, .updateNodeMetrics "10.0.0.2" 7000 1,
         .submit true () "b" ⟨[], (), ()⟩] s ∧
      s.reported 0 = 1 ∧ s.routed 0 = 0 := by
  have hrun : Run loadsStep submitsAndReports (.start oneSlot)
      [.submit true () "a" ⟨[], (), ()⟩, .updateNodeMetrics "10.0.0.2" 7000 1,
       .submit true () "b" ⟨[], (), ()⟩] _ := Run.of_isSome (by decide)
  refine ⟨_, hrun, by decide, ?_⟩
  exact (routed_below_capacity (.inl rfl) hrun).2 0 _ rfl (by decide)

/-- Before it reports, both go there. -/
theorem burst_over_capacity :
    ∃ s, Run loadsStep submitsAndReports (.start oneSlot)
        [.submit true () "a" ⟨[], (), ()⟩, .submit true () "b" ⟨[], (), ()⟩] s ∧
      s.cluster.world.made.map (·.executor) = [.attached 0, .attached 0] ∧
      ¬ s.WithinCapacity := by
  have hrun : Run loadsStep submitsAndReports (.start oneSlot)
      [.submit true () "a" ⟨[], (), ()⟩, .submit true () "b" ⟨[], (), ()⟩] _ :=
    Run.of_isSome (by decide)
  refine ⟨_, hrun, by decide, ?_⟩
  intro h
  exact absurd (h 0 _ rfl) (by decide)

end Distributed
end NexusTask
