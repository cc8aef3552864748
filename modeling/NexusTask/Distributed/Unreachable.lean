import NexusTask.Distributed.Loads

/-!
# Nodes that are unreachable

A node that was marked unreachable is never marked reachable again: a load that is reported for it
does not do it, and an executor attached to it later hears of nothing. So once the one node an
executor is attached to has been marked, no `submit` and no `broadcast` places a task on it, under
any policy, until it is attached to a node that is reachable.
-/

set_option autoImplicit false

namespace NexusTask
namespace Distributed

open Transition

variable {φ ω κ : Type}

/-! ## What an executor has received -/

/-- The submissions made to an executor, in their order. -/
def World.received (w : World φ ω κ) (e : ExecutorRef) : List (Placement φ ω κ) :=
  w.made.filter fun p => p.executor = e

/-- Nothing has come to the executor. -/
structure World.Spares (w w' : World φ ω κ) (e : ExecutorRef) : Prop where
  received : w'.received e = w.received e
  nextTaskId : w'.nextTaskId e = w.nextTaskId e

namespace World.Spares

variable {w w₁ w₂ : World φ ω κ} {e : ExecutorRef}

theorem refl (w : World φ ω κ) (e : ExecutorRef) : w.Spares w e := ⟨rfl, rfl⟩

theorem trans (h : w.Spares w₁ e) (h' : w₁.Spares w₂ e) : w.Spares w₂ e :=
  ⟨h'.received.trans h.received, h'.nextTaskId.trans h.nextTaskId⟩

end World.Spares

theorem World.submitInternal_spares (w : World φ ω κ) {e e' : ExecutorRef} (he : e' ≠ e) (func : φ)
    (name : String) (submission : SubmissionOptions ω κ) :
    w.Spares (w.submitInternal e' func name submission).2 e := by
  constructor
  · show (w.made ++ [_]).filter _ = w.made.filter _
    rw [List.filter_append, List.filter_singleton]
    simp [he]
  · exact Function.update_of_ne (Ne.symm he) _ _

theorem inMemoryTransport_spares {node : NodeInfo} {e : ExecutorRef}
    (h : node.remoteExecutor ≠ some e) (func : φ) (name : String)
    (submission : SubmissionOptions ω κ) (w : World φ ω κ) :
    w.Spares (inMemoryTransport node func name submission w).2 e := by
  unfold inMemoryTransport
  cases hnode : node.remoteExecutor with
  | none => exact .refl w e
  | some e' =>
    have he : e' ≠ e := fun heq => h (hnode.trans (congrArg some heq))
    dsimp only
    split
    · exact w.submitInternal_spares he func name _
    · exact w.submitInternal_spares he func name _

namespace DistributedExecutor

variable {d : DistributedExecutor φ ω κ} {e : ExecutorRef}

/-! ## Where a call can go -/

theorem mayRun_iff (he : e ≠ .localExecutor) : d.MayRun e ↔
    ∃ node ∈ d.nodes, node.reachable = true ∧ node.remoteExecutor = some e := by
  unfold MayRun
  simp [he]

theorem broadcastTo_spares {nodes : List NodeInfo}
    (h : ∀ node ∈ nodes, node.reachable = true → node.remoteExecutor ≠ some e) (func : φ)
    (name : String) (submission : SubmissionOptions ω κ) (ids : List TaskId) (w : World φ ω κ) :
    w.Spares (broadcastTo inMemoryTransport func name submission nodes ids w).2 e := by
  induction nodes generalizing ids w with
  | nil => exact .refl w e
  | cons node nodes ih =>
    have hrest := ih fun node hnode => h node (List.mem_cons_of_mem _ hnode)
    unfold broadcastTo
    cases hreach : node.reachable with
    | false => exact hrest ids w
    | true =>
      have hnode := inMemoryTransport_spares (h node List.mem_cons_self hreach) func name
        submission w
      revert hnode
      cases inMemoryTransport node func name submission w with
      | mk result w' =>
        intro hnode
        cases result with
        | error message => exact hnode
        | ok id => exact hnode.trans (hrest _ w')

theorem broadcast_spares (hd : d.InMemory) (he : e ≠ .localExecutor) (h : ¬ d.MayRun e) (func : φ)
    (name : String) (submission : SubmissionOptions ω κ) (w : World φ ω κ) :
    w.Spares (d.broadcast func name submission w).2 e := by
  have hlocal := w.submitInternal_spares (Ne.symm he) func name
    { dependencies := [], taskOptions := submission.taskOptions, callback := submission.callback }
  unfold broadcast
  cases hsub : d.remoteSubmitter with
  | none => exact hlocal
  | some submitter =>
    obtain rfl := hd submitter hsub
    refine hlocal.trans (broadcastTo_spares ?_ func name submission _ _)
    intro node hnode hreach hexec
    exact h ((mayRun_iff he).mpr ⟨node, hnode, hreach, hexec⟩)

/-- A call comes to no executor that it may not run on. -/
theorem submit_spares (hd : d.InMemory) (he : e ≠ .localExecutor) (h : ¬ d.MayRun e)
    (reloaded : Bool) (func : φ) (name : String) (submission : SubmissionOptions ω κ)
    (w : World φ ω κ) : w.Spares (d.submit reloaded func name submission w).2.1 e := by
  have hlocal := w.submitInternal_spares (Ne.symm he) func name
    { dependencies := [], taskOptions := submission.taskOptions, callback := submission.callback }
  unfold submit
  by_cases hpolicy : d.policy = .broadcast
  · rw [if_pos hpolicy]
    have hall := broadcast_spares hd he h func name submission w
    revert hall
    cases d.broadcast func name submission w with
    | mk result w' => cases result <;> exact fun hall => hall
  · rw [if_neg hpolicy]
    have hpicks := d.selectNode_eq_some_iff
    revert hpicks
    cases d.selectNode with
    | mk candidate d' =>
      intro hpicks
      cases candidate with
      | none => exact hlocal
      | some node =>
        cases hsub : d.remoteSubmitter with
        | none => exact hlocal
        | some submitter =>
          cases reloaded with
          | false => exact hlocal
          | true =>
            obtain rfl := hd submitter hsub
            obtain ⟨hmem, hreach⟩ := ((hpicks node).mp rfl).reachable
            refine inMemoryTransport_spares ?_ func name submission w
            intro hexec
            exact h ((mayRun_iff he).mpr ⟨node, hmem, hreach, hexec⟩)

/-- The nodes stay what they were. -/
theorem submit_nodes (reloaded : Bool) (func : φ) (name : String)
    (submission : SubmissionOptions ω κ) (w : World φ ω κ) :
    (d.submit reloaded func name submission w).2.2.nodes = d.nodes := by
  have hselect : d.selectNode.2.nodes = d.nodes := by
    unfold selectNode
    split
    · rfl
    · cases d.policy with
      | roundRobin =>
        dsimp only
        cases nextInTurn d.roundRobinCursor d.nodes (List.range d.nodes.length) <;> rfl
      | _ => rfl
  unfold submit
  by_cases hpolicy : d.policy = .broadcast
  · rw [if_pos hpolicy]
    cases d.broadcast func name submission w with
    | mk result w' => cases result <;> rfl
  · rw [if_neg hpolicy]
    revert hselect
    cases d.selectNode with
    | mk candidate d' =>
      intro hselect
      cases candidate with
      | none => exact hselect
      | some node => cases hsub : d.remoteSubmitter <;> cases reloaded <;> exact hselect

end DistributedExecutor

/-! ## The node table -/

/-- A node of the changed table was in it, or is the first at the address after the change. -/
theorem mem_modifyNode {address : String} {port : UInt16} {f : NodeInfo → NodeInfo}
    {nodes : List NodeInfo} {node' : NodeInfo} (h : node' ∈ modifyNode address port f nodes) :
    node' ∈ nodes ∨ ∃ node, nodes.find? (·.isAt address port) = some node ∧ node' = f node := by
  induction nodes with
  | nil => exact .inl h
  | cons node nodes ih =>
    unfold modifyNode at h
    rw [List.find?_cons]
    cases hat : node.isAt address port with
    | true =>
      rw [hat, if_pos rfl] at h
      rcases List.mem_cons.mp h with rfl | h
      · exact .inr ⟨node, rfl, rfl⟩
      · exact .inl (List.mem_cons_of_mem _ h)
    | false =>
      rw [hat, if_neg (by simp)] at h
      rcases List.mem_cons.mp h with rfl | h
      · exact .inl List.mem_cons_self
      · exact (ih h).imp_left (List.mem_cons_of_mem _)

namespace DistributedExecutor

variable {d : DistributedExecutor φ ω κ} {e : ExecutorRef}

/-- A change that neither attaches an executor nor makes a node reachable. -/
theorem mayRun_modify {address : String} {port : UInt16} {f : NodeInfo → NodeInfo}
    (he : e ≠ .localExecutor) (hreach : ∀ node, (f node).reachable = true → node.reachable = true)
    (hexec : ∀ node, (f node).remoteExecutor = node.remoteExecutor)
    (h : ({ d with nodes := modifyNode address port f d.nodes } :
      DistributedExecutor φ ω κ).MayRun e) : d.MayRun e := by
  obtain ⟨node', hnode', hreach', hexec'⟩ := (mayRun_iff he).mp h
  apply (mayRun_iff he).mpr
  rcases mem_modifyNode hnode' with hmem | ⟨node, hfind, rfl⟩
  · exact ⟨node', hmem, hreach', hexec'⟩
  · exact ⟨node, List.mem_of_find?_eq_some hfind, hreach node hreach', (hexec node).symm.trans hexec'⟩

theorem mayRun_addNode {address : String} {port : UInt16} {capacity : UInt64}
    (he : e ≠ .localExecutor) (h : (d.addNode address port capacity).MayRun e) : d.MayRun e := by
  obtain ⟨node, hnode, hreach, hexec⟩ := (mayRun_iff he).mp h
  rcases List.mem_append.mp hnode with hmem | hnew
  · exact (mayRun_iff he).mpr ⟨node, hmem, hreach, hexec⟩
  · obtain rfl := List.mem_singleton.mp hnew
    exact absurd hexec (by simp)

theorem mayRun_removeNode {address : String} {port : UInt16} (he : e ≠ .localExecutor)
    (h : (d.removeNode address port).MayRun e) : d.MayRun e := by
  obtain ⟨node, hnode, hreach, hexec⟩ := (mayRun_iff he).mp h
  exact (mayRun_iff he).mpr ⟨node, List.mem_of_mem_filter hnode, hreach, hexec⟩

/-- An executor that is attached to an unreachable node hears of nothing there. -/
theorem mayRun_attach {address : String} {port : UInt16} {k : Nat} {capacity : UInt64}
    (he : e ≠ .localExecutor)
    (hout : .attached k = e →
      ∃ node ∈ d.nodes.find? (·.isAt address port), node.reachable = false)
    (h : (d.attachInMemoryExecutor address port k capacity).MayRun e) : d.MayRun e := by
  obtain ⟨node', hnode', hreach, hexec⟩ := (mayRun_iff he).mp h
  apply (mayRun_iff he).mpr
  have hnew : ∀ node ∈ (if d.nodes.any (·.isAt address port) then d.nodes
      else d.nodes ++ [{ address, port, capacity := max 1 capacity }] : List NodeInfo),
      node ∈ d.nodes ∨ node.remoteExecutor = none := by
    intro node hnode
    split at hnode
    · exact .inl hnode
    · rcases List.mem_append.mp hnode with hmem | hlast
      · exact .inl hmem
      · obtain rfl := List.mem_singleton.mp hlast
        exact .inr rfl
  rcases mem_modifyNode hnode' with hmem | ⟨node, hfind, rfl⟩
  · rcases hnew node' hmem with hmem | hnone
    · exact ⟨node', hmem, hreach, hexec⟩
    · exact absurd (hnone.symm.trans hexec) (by simp)
  · -- The node the executor is attached to is the one that is there already.
    obtain ⟨first, hfirst, hunreachable⟩ := hout (Option.some.inj hexec)
    have hthere : d.nodes.any (·.isAt address port) = true :=
      List.any_eq_true.mpr ⟨first, List.mem_of_find?_eq_some hfirst, List.find?_some hfirst⟩
    rw [if_pos hthere] at hfind
    obtain rfl := Option.some.inj (hfirst.symm.trans hfind)
    exact absurd (hunreachable.symm.trans hreach) (by simp)

end DistributedExecutor

/-! ## Runs -/

/-- The executor is not attached to a node unless that one is unreachable, and nobody submits to it
directly. -/
def keepsOut (e : ExecutorRef) (s : Cluster φ ω κ) : ClusterOp φ ω κ → Prop
  | .attachInMemoryExecutor address port k _ => .attached k = e →
      ∃ node ∈ s.executor.nodes.find? (·.isAt address port), node.reachable = false
  | .submitTo e' _ _ _ => e' ≠ e
  | _ => True

instance (e : ExecutorRef) (s : Cluster φ ω κ) : (op : ClusterOp φ ω κ) → Decidable (keepsOut e s op)
  | .attachInMemoryExecutor address port k _ => inferInstanceAs (Decidable (.attached k = e →
      ∃ node ∈ s.executor.nodes.find? (·.isAt address port), node.reachable = false))
  | .submitTo e' _ _ _ => inferInstanceAs (Decidable (e' ≠ e))
  | .addNode _ _ _ | .removeNode _ _ | .updateNodeMetrics _ _ _ | .markNodeUnreachable _ _
  | .setPolicy _ | .enableInMemoryTransport | .submit _ _ _ _ => .isTrue trivial

namespace Cluster

variable {s t : Cluster φ ω κ} {op : ClusterOp φ ω κ} {e : ExecutorRef}

theorem inMemory_of_step (h : s.executor.InMemory) (hstep : clusterStep s op = some t) :
    t.executor.InMemory := by
  cases op with
  | enableInMemoryTransport =>
    obtain rfl := Option.some.inj hstep
    exact fun _ hsub => (Option.some.inj hsub).symm
  | submit reloaded func name submission =>
    obtain rfl := Option.some.inj hstep
    intro submitter hsub
    have hsame := DistributedExecutor.submit_remoteSubmitter (d := s.executor) func name submission
      reloaded s.world
    exact h submitter (hsame.symm.trans hsub)
  | _ =>
    obtain rfl := Option.some.inj hstep
    exact h

/-- An executor that is out stays out. -/
theorem mayRun_of_step (he : e ≠ .localExecutor) (hok : keepsOut e s op)
    (hstep : clusterStep s op = some t) (h : t.executor.MayRun e) : s.executor.MayRun e := by
  cases op with
  | addNode address port capacity =>
    obtain rfl := Option.some.inj hstep
    exact DistributedExecutor.mayRun_addNode he h
  | removeNode address port =>
    obtain rfl := Option.some.inj hstep
    exact DistributedExecutor.mayRun_removeNode he h
  | attachInMemoryExecutor address port k capacity =>
    obtain rfl := Option.some.inj hstep
    exact DistributedExecutor.mayRun_attach he hok h
  | updateNodeMetrics address port inflight =>
    obtain rfl := Option.some.inj hstep
    refine DistributedExecutor.mayRun_modify
      (f := fun node => { node with currentLoad := inflight }) he ?_ ?_ h
    · exact fun _ hreach => hreach
    · exact fun _ => rfl
  | markNodeUnreachable address port =>
    obtain rfl := Option.some.inj hstep
    refine DistributedExecutor.mayRun_modify
      (f := fun node => { node with reachable := false }) he ?_ ?_ h
    · exact fun _ hreach => absurd hreach (by simp)
    · exact fun _ => rfl
  | submit reloaded func name submission =>
    obtain rfl := Option.some.inj hstep
    obtain ⟨node, hnode, hrest⟩ := (DistributedExecutor.mayRun_iff he).mp h
    have hsame := DistributedExecutor.submit_nodes (d := s.executor) reloaded func name submission
      s.world
    exact (DistributedExecutor.mayRun_iff he).mpr ⟨node, hsame ▸ hnode, hrest⟩
  | _ =>
    obtain rfl := Option.some.inj hstep
    exact h

theorem spares_of_step (hd : s.executor.InMemory) (he : e ≠ .localExecutor)
    (hout : ¬ s.executor.MayRun e) (hok : keepsOut e s op) (hstep : clusterStep s op = some t) :
    s.world.Spares t.world e := by
  cases op with
  | submit reloaded func name submission =>
    obtain rfl := Option.some.inj hstep
    exact DistributedExecutor.submit_spares hd he hout reloaded func name submission s.world
  | submitTo e' func name submission =>
    obtain rfl := Option.some.inj hstep
    exact s.world.submitInternal_spares hok func name submission
  | _ =>
    obtain rfl := Option.some.inj hstep
    exact .refl s.world e

end Cluster

/-- No call places a task on the executor, and none has since the world was `w`. -/
structure CutOff (e : ExecutorRef) (w : World φ ω κ) (s : Cluster φ ω κ) : Prop where
  inMemory : s.executor.InMemory
  out : ¬ s.executor.MayRun e
  spares : w.Spares s.world e

theorem cutOff_step {e : ExecutorRef} (he : e ≠ .localExecutor) (w : World φ ω κ) :
    Preserved clusterStep (keepsOut e) (CutOff e w) := by
  intro s op t h hok hstep
  constructor
  · exact Cluster.inMemory_of_step h.inMemory hstep
  · exact fun hrun => h.out (Cluster.mayRun_of_step he hok hstep hrun)
  · exact h.spares.trans (Cluster.spares_of_step h.inMemory he h.out hok hstep)

/-- The one node an executor may run on is cut off by marking it. -/
theorem mark_cutOff {d : DistributedExecutor φ ω κ} {e : ExecutorRef} {address : String}
    {port : UInt16} (he : e ≠ .localExecutor)
    (honly : ∀ (i : Nat) (h : i < d.nodes.length), d.nodes[i].reachable = true →
      d.nodes[i].remoteExecutor = some e → d.nodes.findIdx? (·.isAt address port) = some i) :
    ¬ (d.markNodeUnreachable address port).MayRun e := by
  intro h
  obtain ⟨node', hnode', hreach, hexec⟩ := (DistributedExecutor.mayRun_iff he).mp h
  obtain ⟨i, hi⟩ := List.mem_iff_getElem?.mp hnode'
  have hget : (modifyNode address port (fun node => { node with reachable := false }) d.nodes)[i]?
      = some node' := hi
  rw [modifyNode_getElem?] at hget
  split at hget
  next =>
    obtain ⟨node, _, rfl⟩ := Option.map_eq_some_iff.mp hget
    exact absurd hreach (by simp)
  next hfirst =>
    obtain ⟨hlt, rfl⟩ := List.getElem?_eq_some_iff.mp hget
    exact hfirst (honly i hlt hreach hexec)

/-- **Unreachable for good.** A node is marked that is the only reachable one an executor is
attached to, and the first at its address. From then on no call places a task on that executor,
whatever is submitted, broadcast, reported, added, removed or marked and whatever the policy is, as
long as the executor is attached to no reachable node and nobody submits to it directly. -/
theorem unreachable_for_good {nextTaskId : ExecutorRef → TaskId} {ops ops' : List (ClusterOp φ ω κ)}
    {s t : Cluster φ ω κ} {k : Nat} {address : String} {port : UInt16}
    (run : Run clusterStep free (Cluster.start nextTaskId) ops s)
    (honly : ∀ (i : Nat) (h : i < s.executor.nodes.length), s.executor.nodes[i].reachable = true →
      s.executor.nodes[i].remoteExecutor = some (.attached k) →
      s.executor.nodes.findIdx? (·.isAt address port) = some i)
    (rest : Run clusterStep (keepsOut (.attached k)) s
      (.markNodeUnreachable address port :: ops') t) :
    t.world.received (.attached k) = s.world.received (.attached k) ∧
      ¬ t.executor.MayRun (.attached k) := by
  have he : ExecutorRef.attached k ≠ .localExecutor := by simp
  have hpreserved : Preserved clusterStep free fun s : Cluster φ ω κ => s.executor.InMemory :=
    fun _ _ _ h _ hstep => Cluster.inMemory_of_step h hstep
  have hinMemory := run.invariant hpreserved fun _ hsub => nomatch hsub
  obtain ⟨_, s', hstep, hrest⟩ := rest.of_cons
  have hcut : CutOff (.attached k) s.world s' := by
    obtain rfl := Option.some.inj hstep
    exact ⟨hinMemory, mark_cutOff he honly, .refl _ _⟩
  have hend := hrest.invariant (cutOff_step he s.world) hcut
  exact ⟨hend.spares.received, hend.out⟩

/-- A task has gone to the one node. -/
def oneReceived : Cluster Unit Unit Unit :=
  (exec clusterStep free (.start fun _ => 1)
    [.addNode "10.0.0.2" 7000 4, .attachInMemoryExecutor "10.0.0.2" 7000 0 0,
     .enableInMemoryTransport, .submit true () "a" ⟨[], (), ()⟩]).get (by decide)

/-- The node is marked, and comes with a report of its load. -/
def marked : Cluster Unit Unit Unit :=
  (exec clusterStep (keepsOut (.attached 0)) oneReceived
    [.markNodeUnreachable "10.0.0.2" 7000, .updateNodeMetrics "10.0.0.2" 7000 0,
     .attachInMemoryExecutor "10.0.0.2" 7000 0 0, .submit true () "b" ⟨[], (), ()⟩,
     .setPolicy .broadcast, .submit true () "c" ⟨[], (), ()⟩]).get (by decide)

theorem unreachable_for_good_marked : (oneReceived.world.received (.attached 0)).length = 1 ∧
    marked.world.received (.attached 0) = oneReceived.world.received (.attached 0) ∧
      ¬ marked.executor.MayRun (.attached 0) :=
  ⟨by decide, unreachable_for_good (.of_isSome (by decide)) (by decide) (.of_isSome (by decide))⟩

end Distributed
end NexusTask
