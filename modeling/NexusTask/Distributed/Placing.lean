import Mathlib.Data.List.Rotate
import NexusTask.Distributed.Ids

/-!
# Where `DistributedExecutor::submit` places a task

`select_node` looks at what the policy asks for: a node that is reachable and, under two of the
policies, has room. Whether an executor is attached to it is looked at by the in-memory transport
only, after the choice is made, and what it finds missing there it throws; no other candidate is
tried, and the local executor is not fallen back on. `Picks` says which node a policy picks from a
table, without a loop; the task is placed exactly if that one has an executor.
-/

set_option autoImplicit false

namespace NexusTask
namespace Distributed

open Transition

variable {φ ω κ : Type}

/-! ## Which node is picked -/

/-- `node` is the first of `nodes` with the property. -/
def FirstOf (p : NodeInfo → Bool) (nodes : List NodeInfo) (node : NodeInfo) : Prop :=
  ∃ before after, nodes = before ++ node :: after ∧ p node = true ∧
    ∀ other ∈ before, p other = false

/-- `node` has room, and the first of the least loads of those that do. -/
def LeastLoadedOf (nodes : List NodeInfo) (node : NodeInfo) : Prop :=
  ∃ before after, nodes = before ++ node :: after ∧ node.available = true ∧
    (∀ other ∈ before, other.available = true → node.currentLoad < other.currentLoad) ∧
    ∀ other ∈ after, other.available = true → node.currentLoad ≤ other.currentLoad

/-- The node a policy asks for. `RoundRobin` goes round the table once, from the cursor on. -/
def DistributedExecutor.Picks (d : DistributedExecutor φ ω κ) (node : NodeInfo) : Prop :=
  match d.policy with
  | .localFirst => FirstOf (·.reachable) d.nodes node
  | .leastLoaded => LeastLoadedOf d.nodes node
  | .roundRobin => FirstOf (·.available) (d.nodes.rotate d.roundRobinCursor) node
  | .broadcast => False

theorem firstOf_iff (p : NodeInfo → Bool) (nodes : List NodeInfo) (node : NodeInfo) :
    nodes.find? p = some node ↔ FirstOf p nodes node := by
  rw [List.find?_eq_some_iff_append]
  constructor
  · rintro ⟨hp, before, after, hsplit, hbefore⟩
    exact ⟨before, after, hsplit, hp, fun other h => by simpa using hbefore other h⟩
  · rintro ⟨before, after, hsplit, hp, hbefore⟩
    exact ⟨hp, before, after, hsplit, fun other h => by simpa using hbefore other h⟩

theorem FirstOf.mem {p : NodeInfo → Bool} {nodes : List NodeInfo} {node : NodeInfo}
    (h : FirstOf p nodes node) : node ∈ nodes ∧ p node = true := by
  obtain ⟨before, after, rfl, hp, _⟩ := h
  exact ⟨List.mem_append_right _ List.mem_cons_self, hp⟩

theorem leastLoadedOf_cons (first node : NodeInfo) (nodes : List NodeInfo) :
    LeastLoadedOf (first :: nodes) node ↔
      (first = node ∧ node.available = true ∧
        ∀ other ∈ nodes, other.available = true → node.currentLoad ≤ other.currentLoad) ∨
      (LeastLoadedOf nodes node ∧
        (first.available = true → node.currentLoad < first.currentLoad)) := by
  constructor
  · rintro ⟨before, after, hsplit, hroom, hbefore, hafter⟩
    cases before with
    | nil =>
      obtain ⟨rfl, rfl⟩ := List.cons.inj hsplit
      exact .inl ⟨rfl, hroom, hafter⟩
    | cons head before =>
      obtain ⟨rfl, rfl⟩ := List.cons.inj hsplit
      exact .inr ⟨⟨before, after, rfl, hroom, fun other h => hbefore other (.tail _ h), hafter⟩,
        hbefore first List.mem_cons_self⟩
  · rintro (⟨rfl, hroom, hafter⟩ | ⟨⟨before, after, rfl, hroom, hbefore, hafter⟩, hfirst⟩)
    · exact ⟨[], nodes, rfl, hroom, fun _ h => absurd h List.not_mem_nil, hafter⟩
    · refine ⟨first :: before, after, rfl, hroom, ?_, hafter⟩
      intro other hmem
      rcases List.mem_cons.mp hmem with rfl | hmem
      · exact hfirst
      · exact hbefore other hmem

theorem LeastLoadedOf.mem {nodes : List NodeInfo} {node : NodeInfo} (h : LeastLoadedOf nodes node) :
    node ∈ nodes ∧ node.available = true := by
  obtain ⟨before, after, rfl, hroom, _⟩ := h
  exact ⟨List.mem_append_right _ List.mem_cons_self, hroom⟩

/-- The loop under `LeastLoaded`, from any candidate on: it ends with a node that beats the load it
began with, or keeps the candidate when none does. -/
theorem lessLoaded_eq_some_iff (nodes : List NodeInfo) (best : UInt64 × Option NodeInfo)
    (node : NodeInfo) :
    (nodes.foldl NodeInfo.lessLoaded best).2 = some node ↔
      (LeastLoadedOf nodes node ∧ node.currentLoad < best.1) ∨
      (best.2 = some node ∧ ∀ other ∈ nodes, other.available = true →
        best.1 ≤ other.currentLoad) := by
  induction nodes generalizing best with
  | nil => simp [LeastLoadedOf]
  | cons first nodes ih =>
    rw [List.foldl_cons, ih, leastLoadedOf_cons]
    by_cases hless : first.available = true ∧ first.currentLoad < best.1
    · -- `first` is the candidate from here on, with its load to beat.
      obtain ⟨hroom, hlt⟩ := hless
      have hbest : NodeInfo.lessLoaded best first = (first.currentLoad, some first) := by
        simp only [NodeInfo.available, Bool.and_eq_true, decide_eq_true_eq] at hroom
        simp [NodeInfo.lessLoaded, hroom, hlt]
      have hnot : ¬ best.1 ≤ first.currentLoad := UInt64.not_le.mpr hlt
      rw [hbest]
      constructor
      · rintro (⟨hrest, hfirst⟩ | ⟨hsame, hall⟩)
        · exact .inl ⟨.inr ⟨hrest, fun _ => hfirst⟩, UInt64.lt_trans hfirst hlt⟩
        · obtain rfl := Option.some.inj hsame
          exact .inl ⟨.inl ⟨rfl, hroom, hall⟩, hlt⟩
      · rintro (⟨⟨rfl, _, hall⟩ | ⟨hrest, hfirst⟩, _⟩ | ⟨_, hall⟩)
        · exact .inr ⟨rfl, hall⟩
        · exact .inl ⟨hrest, hfirst hroom⟩
        · exact absurd (hall first List.mem_cons_self hroom) hnot
    · have hkeep : NodeInfo.lessLoaded best first = best := by
        refine if_neg fun h => hless ?_
        rw [Bool.and_eq_true, decide_eq_true_eq] at h
        exact ⟨by simp [NodeInfo.available, h.1, h.2.2], h.2.1⟩
      have hge : first.available = true → best.1 ≤ first.currentLoad := by
        intro hroom
        exact UInt64.not_lt.mp fun hlt => hless ⟨hroom, hlt⟩
      rw [hkeep]
      constructor
      · rintro (⟨hrest, hlt⟩ | ⟨hsame, hall⟩)
        · exact .inl ⟨.inr ⟨hrest, fun hroom => UInt64.lt_of_lt_of_le hlt (hge hroom)⟩, hlt⟩
        · exact .inr ⟨hsame, List.forall_mem_cons.mpr ⟨hge, hall⟩⟩
      · rintro (⟨⟨rfl, hroom, _⟩ | ⟨hrest, _⟩, hlt⟩ | ⟨hsame, hall⟩)
        · exact absurd ⟨hroom, hlt⟩ hless
        · exact .inl ⟨hrest, hlt⟩
        · exact .inr ⟨hsame, (List.forall_mem_cons.mp hall).2⟩

theorem filterMap_range_getElem? {α : Type} (xs : List α) :
    (List.range xs.length).filterMap (xs[·]?) = xs := by
  induction xs with
  | nil => rfl
  | cons x xs ih =>
    have hhead : (x :: xs)[0]? = some x := rfl
    rw [List.length_cons, List.range_succ_eq_map, List.filterMap_cons_some hhead,
      List.filterMap_map]
    exact congrArg (x :: ·) ih

/-- The loop under `RoundRobin` goes through the table rotated to begin at the cursor. -/
theorem nextInTurn_eq_find (cursor : Nat) (nodes : List NodeInfo) :
    (DistributedExecutor.nextInTurn cursor nodes (List.range nodes.length)).map Prod.fst
      = (nodes.rotate cursor).find? (·.available) := by
  have hloop : ∀ turns : List Nat,
      (DistributedExecutor.nextInTurn cursor nodes turns).map Prod.fst
        = (turns.filterMap fun i => nodes[(cursor + i) % nodes.length]?).find? (·.available) := by
    intro turns
    induction turns with
    | nil => rfl
    | cons i turns ih =>
      unfold DistributedExecutor.nextInTurn
      cases hnode : nodes[(cursor + i) % nodes.length]? with
      | none => simpa [hnode] using ih
      | some node =>
        by_cases hroom : node.available = true
        · simp [hnode, hroom]
        · simpa [hnode, hroom] using ih
  have htable : ((List.range nodes.length).filterMap fun i =>
      nodes[(cursor + i) % nodes.length]?) = nodes.rotate cursor := by
    have hrange := filterMap_range_getElem? (nodes.rotate cursor)
    rw [List.length_rotate] at hrange
    refine (List.filterMap_congr fun i hi => ?_).trans hrange
    rw [List.getElem?_rotate (List.mem_range.mp hi), Nat.add_comm]
  rw [hloop, htable]

namespace DistributedExecutor

variable (d : DistributedExecutor φ ω κ)

/-- The candidate of `select_node` is the node its policy picks. -/
theorem selectNode_eq_some_iff (node : NodeInfo) :
    d.selectNode.1 = some node ↔ d.Picks node := by
  unfold selectNode Picks
  cases hnodes : d.nodes with
  | nil => cases d.policy <;> simp [FirstOf, LeastLoadedOf]
  | cons first nodes =>
    rw [← hnodes, if_neg (by simp [hnodes])]
    cases d.policy with
    | localFirst => exact firstOf_iff ..
    | leastLoaded =>
      refine (lessLoaded_eq_some_iff ..).trans ⟨fun h => ?_, fun h => .inl ⟨h, ?_⟩⟩
      · rcases h with h | h
        · exact h.1
        · exact absurd h.1 (by simp)
      · exact node.load_lt_max h.mem.2
    | roundRobin =>
      dsimp only
      rw [← firstOf_iff, ← nextInTurn_eq_find]
      cases nextInTurn d.roundRobinCursor d.nodes (List.range d.nodes.length) with
      | none => exact Iff.rfl
      | some found => exact Iff.rfl
    | broadcast => simp

/-- An executor a task may be placed on: that of a reachable node, or the local one. -/
def MayRun (e : ExecutorRef) : Prop :=
  e = .localExecutor ∨ ∃ node ∈ d.nodes, node.reachable = true ∧ node.remoteExecutor = some e

/-- `submit` returns an id, and has made one submission of the task. -/
def PlacesOnce (reloaded : Bool) (func : φ) (name : String) (submission : SubmissionOptions ω κ)
    (w : World φ ω κ) : Prop :=
  (∃ id, (d.submit reloaded func name submission w).1 = .ok id) ∧
  ∃ p, (d.submit reloaded func name submission w).2.1.made = w.made ++ [p] ∧
    p.func = func ∧ p.name = name ∧ d.MayRun p.executor

end DistributedExecutor

/-- At a node without an executor the in-memory transport throws, and nothing is placed. -/
theorem inMemoryTransport_missing {node : NodeInfo} (h : node.remoteExecutor = none) (func : φ)
    (name : String) (submission : SubmissionOptions ω κ) (w : World φ ω κ) :
    inMemoryTransport node func name submission w
      = (.error "Remote node missing in-memory executor", w) := by
  unfold inMemoryTransport
  rw [h]

/-- At any other it makes one submission, to that executor. -/
theorem inMemoryTransport_places {node : NodeInfo} {e : ExecutorRef}
    (h : node.remoteExecutor = some e) (func : φ) (name : String)
    (submission : SubmissionOptions ω κ) (w : World φ ω κ) :
    ∃ id sent, (inMemoryTransport node func name submission w).1 = .ok id ∧
      (inMemoryTransport node func name submission w).2.made
        = w.made ++ [{ executor := e, func, name, submission := sent }] := by
  unfold inMemoryTransport
  rw [h]
  dsimp only
  split
  · exact ⟨_, _, rfl, rfl⟩
  · exact ⟨_, _, rfl, rfl⟩

/-- A picked node is in the table and reachable. -/
theorem DistributedExecutor.Picks.reachable {d : DistributedExecutor φ ω κ} {node : NodeInfo}
    (h : d.Picks node) : node ∈ d.nodes ∧ node.reachable = true := by
  have hroom : node.available = true → node.reachable = true := fun hroom =>
    (Bool.and_eq_true _ _ ▸ hroom).1
  unfold Picks at h
  cases hpolicy : d.policy with
  | localFirst =>
    rw [hpolicy] at h
    exact h.mem
  | leastLoaded =>
    rw [hpolicy] at h
    exact ⟨h.mem.1, hroom h.mem.2⟩
  | roundRobin =>
    rw [hpolicy] at h
    exact ⟨List.mem_rotate.mp h.mem.1, hroom h.mem.2⟩
  | broadcast =>
    rw [hpolicy] at h
    exact h.elim

/-- **When a submission is placed.** With the in-memory transport and a policy other than
`Broadcast`, `submit` returns and has placed the task on one executor, on the local one or on that
of a reachable node, exactly if the node the policy picks, if it picks one, has an executor or is
found unreachable when it is looked at again. -/
theorem places_once_iff (d : DistributedExecutor φ ω κ) (hpolicy : d.policy ≠ .broadcast)
    (htransport : d.remoteSubmitter = some inMemoryTransport) (reloaded : Bool) (func : φ)
    (name : String) (submission : SubmissionOptions ω κ) (w : World φ ω κ) :
    d.PlacesOnce reloaded func name submission w ↔
      ∀ node, d.Picks node → node.remoteExecutor.isSome = true ∨ reloaded = false := by
  have hpick := d.selectNode_eq_some_iff
  unfold DistributedExecutor.PlacesOnce DistributedExecutor.submit
  rw [if_neg hpolicy, htransport]
  revert hpick
  cases d.selectNode with
  | mk candidate d' =>
    intro hpick
    have hlocal : (∃ id, (Except.ok (w.nextTaskId .localExecutor) : Except String TaskId)
          = .ok id) ∧
        ∃ p, (w.submit .localExecutor func name submission.taskOptions
            submission.callback).2.made = w.made ++ [p] ∧
          p.func = func ∧ p.name = name ∧ d.MayRun p.executor :=
      ⟨⟨_, rfl⟩, _, rfl, rfl, rfl, .inl rfl⟩
    cases candidate with
    | none =>
      -- No node suits the policy.
      refine iff_of_true hlocal fun node hnode => ?_
      exact absurd ((hpick node).mpr hnode) (by simp)
    | some node =>
      have hthis : ∀ other, d.Picks other ↔ node = other := fun other =>
        (hpick other).symm.trans Option.some_inj
      cases reloaded with
      | false => exact iff_of_true hlocal fun _ _ => .inr rfl
      | true =>
        cases hexec : node.remoteExecutor with
        | none =>
          refine iff_of_false ?_ ?_
          · rintro ⟨⟨id, hid⟩, _⟩
            simp [inMemoryTransport_missing hexec] at hid
          · intro hall
            simpa [hexec] using hall node ((hthis node).mpr rfl)
        | some e =>
          obtain ⟨id, sent, hid, hmade⟩ :=
            inMemoryTransport_places hexec func name submission w
          have hnode := ((hthis node).mpr rfl).reachable
          refine iff_of_true ⟨⟨id, hid⟩, _, hmade, rfl, rfl, .inr ⟨node, hnode.1, hnode.2, hexec⟩⟩ ?_
          intro other hother
          obtain rfl := (hthis other).mp hother
          exact .inl (by simp [hexec])

/-- A node is added, its executor attached, and the task goes there. -/
theorem places_once_attached :
    ∃ s : Cluster Unit Unit Unit, Run clusterStep free (.start fun _ => 1)
        [.addNode "192.168.1.100" 8080 16, .attachInMemoryExecutor "192.168.1.100" 8080 0 0,
         .setPolicy .leastLoaded, .enableInMemoryTransport] s ∧
      s.executor.PlacesOnce true () "DistributedTask" ⟨[], (), ()⟩ s.world := by
  refine ⟨_, Run.of_isSome (by decide), ?_⟩
  refine (places_once_iff _ (by decide) rfl ..).mpr fun node hnode => .inl ?_
  have hmem := hnode.reachable.1
  obtain rfl := List.mem_singleton.mp hmem
  rfl

/-- Without the attached executor, which is how the table of the README is built, `submit` throws
and the task is nowhere. -/
theorem stranded_submit_throws :
    ∃ s : Cluster Unit Unit Unit, Run clusterStep free (.start fun _ => 1)
        [.addNode "192.168.1.100" 8080 16, .setPolicy .leastLoaded, .enableInMemoryTransport] s ∧
      s.executor.policy ≠ .broadcast ∧ s.executor.remoteSubmitter = some inMemoryTransport ∧
      (s.executor.submit true () "DistributedTask" ⟨[], (), ()⟩ s.world).1
        = .error "Remote node missing in-memory executor" ∧
      (s.executor.submit true () "DistributedTask" ⟨[], (), ()⟩ s.world).2.1.made = [] ∧
      ¬ s.executor.PlacesOnce true () "DistributedTask" ⟨[], (), ()⟩ s.world := by
  refine ⟨_, Run.of_isSome (by decide), by decide, rfl, rfl, rfl, ?_⟩
  rintro ⟨⟨id, hid⟩, _⟩
  have herror : (Except.ok id : Except String TaskId)
      = .error "Remote node missing in-memory executor" := hid.symm
  exact absurd herror (by simp)

end Distributed
end NexusTask
