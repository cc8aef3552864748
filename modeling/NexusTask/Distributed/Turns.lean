import NexusTask.Distributed.Placing
import NexusTask.Lib.RoundRobin

/-!
# Whose turn it is under `RoundRobin`

`select_node` returns a pointer into the table, and two nodes of it may look the same. Here the
pointer is an index; `selectNode_eq` says that `selectNode` returns the node at that index, and
where the cursor goes. Under `RoundRobin` the indices of the nodes with room take turns, from
whatever cursor the earlier calls have left, also from one that a shorter table does not have.
-/

set_option autoImplicit false

namespace NexusTask
namespace Distributed

variable {φ ω κ : Type}

/-! ## The pointer -/

/-- `NodeInfo.lessLoaded`, with the index of the candidate. -/
def lessLoadedAt (best : UInt64 × Option Nat) (entry : NodeInfo × Nat) : UInt64 × Option Nat :=
  if entry.1.reachable &&
      decide (entry.1.currentLoad < best.1 ∧ entry.1.currentLoad < entry.1.capacity) then
    (entry.1.currentLoad, some entry.2)
  else best

namespace DistributedExecutor

/-- The loop under `RoundRobin`, with the index of the candidate. -/
def nextIndex (cursor : Nat) (nodes : List NodeInfo) : List Nat → Option Nat
  | [] => none
  | i :: rest =>
      let index := (cursor + i) % nodes.length
      match nodes[index]? with
      | some node => if node.available then some index else nextIndex cursor nodes rest
      | none => nextIndex cursor nodes rest

variable (d : DistributedExecutor φ ω κ)

/-- The index of the node that `select_node` returns. -/
def selectIndex : Option Nat :=
  match d.policy with
  | .leastLoaded => (d.nodes.zipIdx.foldl lessLoadedAt (UInt64.ofNat (2 ^ 64 - 1), none)).2
  | .roundRobin => nextIndex d.roundRobinCursor d.nodes (List.range d.nodes.length)
  | .localFirst => d.nodes.findIdx? (·.reachable)
  | .broadcast => none

/-- The cursor after the call. -/
def nextCursor : Nat :=
  match d.policy, d.selectIndex with
  | .roundRobin, some i => (i + 1) % d.nodes.length
  | _, _ => d.roundRobinCursor

theorem nextInTurn_eq (cursor : Nat) (nodes : List NodeInfo) (turns : List Nat) :
    nextInTurn cursor nodes turns =
      (nextIndex cursor nodes turns).bind fun i =>
        nodes[i]?.map fun node => (node, (i + 1) % nodes.length) := by
  induction turns with
  | nil => rfl
  | cons i turns ih =>
    unfold nextInTurn nextIndex
    cases hnode : nodes[(cursor + i) % nodes.length]? with
    | none => simpa [hnode] using ih
    | some node =>
      by_cases hroom : node.available = true
      · simp [hnode, hroom]
      · simpa [hnode, hroom] using ih

/-- At `i` is a node with room. -/
def hasRoomAt (nodes : List NodeInfo) (i : Nat) : Bool := nodes[i]?.any (·.available)

/-- The loop takes the place whose turn it is. -/
theorem nextIndex_eq_taken (cursor : Nat) (nodes : List NodeInfo) :
    nextIndex cursor nodes (List.range nodes.length)
      = RoundRobin.taken nodes.length (hasRoomAt nodes) cursor := by
  have hloop : ∀ turns : List Nat, nextIndex cursor nodes turns
      = (turns.map fun i => (cursor + i) % nodes.length).find? (hasRoomAt nodes) := by
    intro turns
    induction turns with
    | nil => rfl
    | cons i turns ih =>
      unfold nextIndex
      rw [List.map_cons, List.find?_cons]
      cases hnode : nodes[(cursor + i) % nodes.length]? with
      | none => simpa [hasRoomAt, hnode] using ih
      | some node =>
        by_cases hroom : node.available = true
        · simp [hasRoomAt, hnode, hroom]
        · simpa [hasRoomAt, hnode, hroom] using ih
  rw [hloop, RoundRobin.taken, RoundRobin.circle_eq_map]

end DistributedExecutor

/-- Both loops under `LeastLoaded` have the same load to beat, and candidates that belong together.
-/
theorem lessLoadedAt_foldl {nodes : List NodeInfo} (entries : List (NodeInfo × Nat))
    (hentries : ∀ entry ∈ entries, nodes[entry.2]? = some entry.1) (load : UInt64)
    (candidate : Option Nat) :
    (entries.map Prod.fst).foldl NodeInfo.lessLoaded (load, candidate.bind (nodes[·]?)) =
      ((entries.foldl lessLoadedAt (load, candidate)).1,
        (entries.foldl lessLoadedAt (load, candidate)).2.bind (nodes[·]?)) := by
  induction entries generalizing load candidate with
  | nil => rfl
  | cons entry entries ih =>
    have hrest := ih fun e he => hentries e (.tail _ he)
    rw [List.map_cons, List.foldl_cons, List.foldl_cons]
    unfold NodeInfo.lessLoaded lessLoadedAt
    split
    next =>
      have hentry : some entry.1 = (some entry.2).bind (nodes[·]?) :=
        (hentries entry List.mem_cons_self).symm
      rw [hentry]
      exact hrest ..
    next => exact hrest ..

namespace DistributedExecutor

variable (d : DistributedExecutor φ ω κ)

theorem leastLoaded_eq :
    (d.nodes.foldl NodeInfo.lessLoaded (UInt64.ofNat (2 ^ 64 - 1), none)).2 =
      (d.nodes.zipIdx.foldl lessLoadedAt (UInt64.ofNat (2 ^ 64 - 1), none)).2.bind
        (d.nodes[·]?) := by
  have hentries : ∀ entry ∈ d.nodes.zipIdx, d.nodes[entry.2]? = some entry.1 := fun entry h =>
    List.mem_zipIdx_iff_getElem?.mp h
  have hloop := lessLoadedAt_foldl d.nodes.zipIdx hentries (UInt64.ofNat (2 ^ 64 - 1)) none
  rw [List.zipIdx_map_fst] at hloop
  exact congrArg Prod.snd hloop

/-- `select_node` returns the node its pointer points to. -/
theorem selectNode_eq :
    d.selectNode =
      (d.selectIndex.bind (d.nodes[·]?), { d with roundRobinCursor := d.nextCursor }) := by
  have hleast := d.leastLoaded_eq
  obtain ⟨policy, submitter, cursor, nodes⟩ := d
  unfold selectNode nextCursor selectIndex
  cases nodes with
  | nil => cases policy <;> rfl
  | cons first nodes =>
    rw [if_neg (by simp)]
    cases policy with
    | leastLoaded => exact congrArg (·, _) hleast
    | localFirst => exact congrArg (·, _) List.find?_eq_bind_findIdx?_getElem?
    | broadcast => rfl
    | roundRobin =>
      dsimp only
      rw [nextInTurn_eq]
      cases hindex : nextIndex cursor (first :: nodes) (List.range (first :: nodes).length) with
      | none => rfl
      | some i =>
        rw [nextIndex_eq_taken] at hindex
        obtain ⟨node, hnode, _⟩ := (Option.any_eq_true ..).mp (RoundRobin.taken_meets hindex)
        simp [hnode]

/-! ## Rounds -/

/-- The indices of the nodes with room. -/
def eligible (nodes : List NodeInfo) : List Nat :=
  (List.range nodes.length).filter (hasRoomAt nodes)

/-- The executor at the `k`-th of a sequence of calls of `select_node`, which finds the table
`tables k`: between two calls the nodes may have reported other loads. -/
def atCall (tables : Nat → List NodeInfo) : Nat → DistributedExecutor φ ω κ
  | 0 => { d with nodes := tables 0 }
  | k + 1 => { (atCall tables k).selectNode.2 with nodes := tables (k + 1) }

@[simp] theorem atCall_nodes (tables : Nat → List NodeInfo) (k : Nat) :
    (d.atCall tables k).nodes = tables k := by
  cases k <;> rfl

theorem hasRoomAt_congr {nodes nodes' : List NodeInfo} (hlength : nodes'.length = nodes.length)
    (hsame : eligible nodes' = eligible nodes) (i : Nat) (hi : i ∈ List.range nodes.length) :
    hasRoomAt nodes' i = hasRoomAt nodes i := by
  have hmem : ∀ q, i ∈ (List.range nodes.length).filter q ↔ q i = true := fun q =>
    List.mem_filter.trans (and_iff_right hi)
  unfold eligible at hsame
  rw [hlength] at hsame
  rw [Bool.eq_iff_iff, ← hmem, ← hmem, hsame]

variable {d}

/-- A call that finds a table with the same nodes eligible takes the same place. -/
theorem selectIndex_eq_taken (hpolicy : d.policy = .roundRobin) {nodes : List NodeInfo}
    (hlength : d.nodes.length = nodes.length) (hsame : eligible d.nodes = eligible nodes) :
    d.selectIndex = RoundRobin.taken nodes.length (hasRoomAt nodes) d.roundRobinCursor := by
  unfold selectIndex
  rw [hpolicy]
  dsimp only
  rw [nextIndex_eq_taken, hlength]
  exact RoundRobin.taken_congr (hasRoomAt_congr hlength hsame) _

theorem nextCursor_eq_advance (hpolicy : d.policy = .roundRobin) {nodes : List NodeInfo}
    (hlength : d.nodes.length = nodes.length) (hsame : eligible d.nodes = eligible nodes) :
    d.nextCursor = RoundRobin.advance nodes.length (hasRoomAt nodes) d.roundRobinCursor := by
  unfold nextCursor RoundRobin.advance
  rw [hpolicy, selectIndex_eq_taken hpolicy hlength hsame, hlength]
  cases RoundRobin.taken nodes.length (hasRoomAt nodes) d.roundRobinCursor <;> rfl

theorem atCall_policy (tables : Nat → List NodeInfo) (hpolicy : d.policy = .roundRobin) (k : Nat) :
    (d.atCall tables k).policy = .roundRobin := by
  induction k with
  | zero => exact hpolicy
  | succ k ih =>
    show (d.atCall tables k).selectNode.2.policy = _
    rw [selectNode_eq]
    exact ih

variable {tables : Nat → List NodeInfo}

/-- The cursor at the `k`-th call. -/
theorem atCall_cursor (hpolicy : d.policy = .roundRobin) {nodes : List NodeInfo}
    (htables : ∀ k, (tables k).length = nodes.length ∧ eligible (tables k) = eligible nodes)
    (k : Nat) :
    (d.atCall tables k).roundRobinCursor
      = RoundRobin.cursorAfter nodes.length (hasRoomAt nodes) d.roundRobinCursor k := by
  induction k with
  | zero => rfl
  | succ k ih =>
    have hcall := d.atCall_nodes tables k
    have hnext := nextCursor_eq_advance (atCall_policy tables hpolicy k)
      (hcall ▸ (htables k).1) (hcall ▸ (htables k).2)
    show (d.atCall tables k).selectNode.2.roundRobinCursor = _
    rw [selectNode_eq, RoundRobin.cursorAfter, ← ih]
    exact hnext

theorem atCall_selectIndex (hpolicy : d.policy = .roundRobin) {nodes : List NodeInfo}
    (htables : ∀ k, (tables k).length = nodes.length ∧ eligible (tables k) = eligible nodes)
    (k : Nat) :
    (d.atCall tables k).selectIndex
      = RoundRobin.taken nodes.length (hasRoomAt nodes)
          (RoundRobin.cursorAfter nodes.length (hasRoomAt nodes) d.roundRobinCursor k) := by
  have hcall := d.atCall_nodes tables k
  rw [← atCall_cursor hpolicy htables k]
  exact selectIndex_eq_taken (atCall_policy tables hpolicy k) (hcall ▸ (htables k).1)
    (hcall ▸ (htables k).2)

end DistributedExecutor

open DistributedExecutor in
/-- **Round robin is fair.** From any cursor on, and as long as the same places of the table are
eligible, `m` consecutive calls of `select_node` return each of the `m` eligible nodes once, the
calls after them go on in that order, and with no node eligible a call changes nothing. -/
theorem round_robin_fair (d : DistributedExecutor φ ω κ) (hpolicy : d.policy = .roundRobin)
    (nodes : List NodeInfo) (tables : Nat → List NodeInfo)
    (htables : ∀ k, (tables k).length = nodes.length ∧ eligible (tables k) = eligible nodes) :
    (∀ k, (d.atCall tables k).selectNode.1
      = (d.atCall tables k).selectIndex.bind ((tables k)[·]?)) ∧
    (∀ j, ((List.range (eligible nodes).length).map fun k =>
      (d.atCall tables (j + k)).selectIndex).Perm ((eligible nodes).map some)) ∧
    (∀ k, (d.atCall tables (k + (eligible nodes).length)).selectIndex
      = (d.atCall tables k).selectIndex) ∧
    (eligible nodes = [] → ∀ k, (d.atCall tables k).selectNode = (none, d.atCall tables k) ∧
      (d.atCall tables k).roundRobinCursor = d.roundRobinCursor) := by
  have hindex := fun k => atCall_selectIndex hpolicy htables k
  refine ⟨fun k => ?_, fun j => ?_, fun k => ?_, fun hempty k => ?_⟩
  · rw [selectNode_eq, atCall_nodes]
  · simp only [hindex]
    exact RoundRobin.round_perm ..
  · rw [hindex, hindex]
    exact RoundRobin.taken_periodic ..
  · have hidle := RoundRobin.cursorAfter_of_empty hempty d.roundRobinCursor k
    have hnone : (d.atCall tables k).selectIndex = none := (hindex k).trans hidle.1
    have hcursor : (d.atCall tables k).nextCursor = (d.atCall tables k).roundRobinCursor := by
      unfold nextCursor
      rw [hnone]
      cases (d.atCall tables k).policy <;> rfl
    refine ⟨?_, (atCall_cursor hpolicy htables k).trans hidle.2⟩
    rw [selectNode_eq, hnone, hcursor]
    rfl

/-- Three nodes, the second of them full, and a cursor beyond the table. -/
def threeNodes : DistributedExecutor Unit Unit Unit where
  policy := .roundRobin
  remoteSubmitter := none
  roundRobinCursor := 5
  nodes := [{ address := "a", port := 1, capacity := 2 },
            { address := "b", port := 1, capacity := 2, currentLoad := 2 },
            { address := "c", port := 1, capacity := 2 }]

open DistributedExecutor in
/-- It begins with the last node, and the first one follows. -/
theorem round_robin_fair_three :
    ((List.range 2).map fun k => (threeNodes.atCall (fun _ => threeNodes.nodes) k).selectIndex)
      = [some 2, some 0] ∧
    ∀ j, ((List.range 2).map fun k =>
        (threeNodes.atCall (fun _ => threeNodes.nodes) (j + k)).selectIndex).Perm
      [some 0, some 2] :=
  ⟨by decide, (round_robin_fair threeNodes rfl threeNodes.nodes (fun _ => threeNodes.nodes)
    fun _ => ⟨rfl, rfl⟩).2.1⟩

end Distributed
end NexusTask
