import Mathlib.Data.Fintype.EquivFin
import Mathlib.Data.Set.Card
import Mathlib.Logic.Relation

/-!
# Kahn's algorithm on a multigraph

`pred v` and `succ v` are the edges at `v`, with repetitions. The algorithm keeps for every vertex
the number of its edges from vertices not yet output, and a queue of the vertices for which this is
0. In-degrees are machine words of `size` values, so that taking 1 from 0 gives `size - 1`; the
state records every value 1 was taken from.

`Inv` is the loop invariant, with the part of the last vertex's edges that is still to be gone
through. What is output is then determined (`mem_order_iff`): everything but the vertices on a cycle
and those behind one.
-/

set_option autoImplicit false

namespace Kahn

open Relation

universe u
variable {V : Type u} [DecidableEq V]

structure State (V : Type u) where
  ready : List V
  indegree : V → Nat
  order : List V
  decremented : List Nat

def decrement (size k : Nat) : Nat := if k = 0 then size - 1 else k - 1

/-- One edge of the vertex last output, to `v`. -/
def visit (size : Nat) (s : State V) (v : V) : State V :=
  let degree := decrement size (s.indegree v)
  { s with indegree := Function.update s.indegree v degree
           ready := if degree = 0 then s.ready ++ [v] else s.ready
           decremented := s.decremented ++ [s.indegree v] }

/-- The first vertex of the queue is output. -/
def output (s : State V) (v : V) (rest : List V) : State V :=
  { s with ready := rest, order := s.order ++ [v] }

/-- The loop, for at most `fuel` vertices. -/
def loop (size : Nat) (succ : V → List V) : Nat → State V → Option (State V)
  | fuel, s =>
      match s.ready, fuel with
      | [], _ => some s
      | _ :: _, 0 => none
      | v :: rest, fuel + 1 => loop size succ fuel ((succ v).foldl (visit size) (output s v rest))

/-- Every edge stands on both lists, and no edge leaves the graph. -/
structure Multigraph (verts : List V) (pred succ : V → List V) : Prop where
  nodup : verts.Nodup
  pred_mem : ∀ u ∈ verts, ∀ v ∈ pred u, v ∈ verts
  succ_mem : ∀ u ∈ verts, ∀ v ∈ succ u, v ∈ verts
  count_eq : ∀ u ∈ verts, ∀ v ∈ verts, (pred u).count v = (succ v).count u

/-- There is an edge into `u` from `v`. -/
def Depends (verts : List V) (pred : V → List V) (u v : V) : Prop := u ∈ verts ∧ v ∈ pred u

/-- `v` lies on a cycle, or depends on a vertex that does. -/
def Blocked (verts : List V) (pred : V → List V) (v : V) : Prop :=
  ∃ c, ReflTransGen (Depends verts pred) v c ∧ TransGen (Depends verts pred) c c

/-- Every vertex comes after all it depends on. -/
def Sorted (pred : V → List V) (order : List V) : Prop :=
  ∀ before v after, order = before ++ v :: after → ∀ p ∈ pred v, p ∈ before

/-- The loop invariant; `pending` are the edges still to be visited. -/
structure Inv (verts : List V) (pred : V → List V) (s : State V) (pending : List V) : Prop where
  nodup : (s.order ++ s.ready).Nodup
  mem : ∀ v ∈ s.order ++ s.ready, v ∈ verts
  degree : ∀ v ∈ verts, s.indegree v = (pred v).countP (· ∉ s.order) + pending.count v
  zero_iff : ∀ v ∈ verts, v ∈ s.order ++ s.ready ↔ s.indegree v = 0
  sorted : Sorted pred s.order
  positive : ∀ k ∈ s.decremented, 0 < k

variable {verts : List V} {pred succ : V → List V} {s : State V} {pending : List V} {v : V}
  {size : Nat}

/-! ## Sorted lists -/

omit [DecidableEq V] in
theorem sorted_nil : Sorted pred ([] : List V) := by
  intro before v after h
  exact absurd h (by simp)

omit [DecidableEq V] in
/-- A vertex may follow when all it depends on has been output. -/
theorem Sorted.snoc {order : List V} (h : Sorted pred order) (hv : ∀ p ∈ pred v, p ∈ order) :
    Sorted pred (order ++ [v]) := by
  intro before w after heq p hp
  rcases List.eq_nil_or_concat after with rfl | ⟨after', x, rfl⟩
  · obtain ⟨rfl, hw⟩ := List.append_inj' heq rfl
    obtain rfl : v = w := List.head_eq_of_cons_eq hw
    exact hv p hp
  · have hsplit : order ++ [v] = (before ++ w :: after') ++ [x] := by
      rw [heq]
      simp
    obtain ⟨rfl, _⟩ := List.append_inj' hsplit rfl
    exact h before w after' rfl p hp

/-- What a vertex depends on stands before it. -/
theorem Sorted.idxOf_lt {order : List V} (h : Sorted pred order) (hn : order.Nodup)
    (hv : v ∈ order) {p : V} (hp : p ∈ pred v) : p ∈ order ∧ order.idxOf p < order.idxOf v := by
  obtain ⟨before, after, rfl⟩ := List.append_of_mem hv
  have hbefore := h before v after rfl p hp
  have hnot : v ∉ before := by
    intro hmem
    exact (List.nodup_append.mp hn).2.2 v hmem v List.mem_cons_self rfl
  refine ⟨List.mem_append_left _ hbefore, ?_⟩
  rw [List.idxOf_append_of_mem hbefore, List.idxOf_append_of_notMem hnot, List.idxOf_cons_self]
  exact List.idxOf_lt_length_of_mem hbefore

/-- Going along dependencies from a vertex of a sorted list stays in it, and moves forward. -/
theorem Sorted.transGen {order : List V} (h : Sorted pred order) (hn : order.Nodup) {u w : V}
    (hu : u ∈ order) (hd : TransGen (Depends verts pred) u w) :
    w ∈ order ∧ order.idxOf w < order.idxOf u := by
  induction hd with
  | single hstep => exact h.idxOf_lt hn hu hstep.2
  | tail _ hstep ih =>
    obtain ⟨hmem, hlt⟩ := h.idxOf_lt hn ih.1 hstep.2
    exact ⟨hmem, Nat.lt_trans hlt ih.2⟩

theorem Sorted.not_blocked {order : List V} (h : Sorted pred order) (hn : order.Nodup)
    (hv : v ∈ order) : ¬ Blocked verts pred v := by
  rintro ⟨c, hreach, hcycle⟩
  have hc : c ∈ order := by
    rcases reflTransGen_iff_eq_or_transGen.mp hreach with rfl | htrans
    · exact hv
    · exact (h.transGen hn hv htrans).1
  exact Nat.lt_irrefl _ (h.transGen hn hc hcycle).2

/-! ## The loop -/

/-- An edge from a vertex not on the list is one from `v`, or from a vertex not on the list with
`v`. -/
theorem countP_notMem_append {order : List V} (hv : v ∉ order) (edges : List V) :
    edges.countP (· ∉ order) = edges.countP (· ∉ order ++ [v]) + edges.count v := by
  induction edges with
  | nil => rfl
  | cons p edges ih =>
    rw [List.countP_cons, List.countP_cons, List.count_cons, ih]
    by_cases hp : p = v
    · subst hp
      simp [hv]
      omega
    · simp [hp]
      omega

/-- Outputting `v` turns its edges into the pending ones. -/
theorem Inv.output (hg : Multigraph verts pred succ) (h : Inv verts pred s []) {rest : List V}
    (hready : s.ready = v :: rest) : Inv verts pred (output s v rest) (succ v) := by
  have happend : (s.order ++ [v]) ++ rest = s.order ++ s.ready := by
    rw [hready, List.append_assoc]
    rfl
  have hmem : v ∈ s.order ++ s.ready := by rw [hready]; simp
  have hv := h.mem v hmem
  have hnot : v ∉ s.order := by
    intro hin
    exact (List.nodup_append.mp h.nodup).2.2 v hin v (by rw [hready]; exact List.mem_cons_self) rfl
  refine ⟨happend ▸ h.nodup, happend ▸ h.mem, ?_, ?_, h.sorted.snoc ?_, h.positive⟩
  · intro w hw
    show s.indegree w = (pred w).countP (· ∉ s.order ++ [v]) + (succ v).count w
    rw [h.degree w hw, List.count_nil, Nat.add_zero, ← hg.count_eq w hw v hv]
    exact countP_notMem_append hnot (pred w)
  · intro w hw
    show w ∈ (s.order ++ [v]) ++ rest ↔ s.indegree w = 0
    rw [happend]
    exact h.zero_iff w hw
  · intro p hp
    have hzero := (h.zero_iff v hv).mp hmem
    rw [h.degree v hv, List.count_nil, Nat.add_zero, List.countP_eq_zero] at hzero
    simpa using hzero p hp

/-- The in-degree of a vertex with an edge pending is positive, so 1 can be taken from it. -/
theorem Inv.visit (h : Inv verts pred s (v :: pending)) (hv : v ∈ verts) :
    Inv verts pred (visit size s v) pending := by
  have hdegree := h.degree v hv
  rw [List.count_cons_self] at hdegree
  have hpos : 0 < s.indegree v := by omega
  have hdec : decrement size (s.indegree v) = s.indegree v - 1 := if_neg (by omega)
  have hnot : v ∉ s.order ++ s.ready := by
    intro hmem
    have := (h.zero_iff v hv).mp hmem
    omega
  have hdegree' : ∀ w ∈ verts, Function.update s.indegree v (s.indegree v - 1) w
      = (pred w).countP (· ∉ s.order) + pending.count w := by
    intro w hw
    by_cases hwv : w = v
    · subst hwv
      rw [Function.update_self]
      omega
    · rw [Function.update_of_ne hwv, h.degree w hw, List.count_cons_of_ne (Ne.symm hwv)]
  have hpositive : ∀ k ∈ s.decremented ++ [s.indegree v], 0 < k := by
    intro k hk
    rcases List.mem_append.mp hk with hk | hk
    · exact h.positive k hk
    · exact List.mem_singleton.mp hk ▸ hpos
  unfold Kahn.visit
  rw [hdec]
  dsimp only
  split
  next hzero =>
    -- The last edge into `v`: it joins the queue.
    have happend : s.order ++ (s.ready ++ [v]) = (s.order ++ s.ready) ++ [v] :=
      (List.append_assoc ..).symm
    refine ⟨?_, ?_, hdegree', ?_, h.sorted, hpositive⟩
    · show (s.order ++ (s.ready ++ [v])).Nodup
      rw [happend]
      exact List.nodup_append.mpr ⟨h.nodup, List.nodup_singleton v, by
        intro a ha b hb he
        rw [List.mem_singleton.mp hb] at he
        exact hnot (he ▸ ha)⟩
    · intro w hw
      rw [happend] at hw
      rcases List.mem_append.mp hw with hw | hw
      · exact h.mem w hw
      · exact List.mem_singleton.mp hw ▸ hv
    · intro w hw
      show w ∈ s.order ++ (s.ready ++ [v]) ↔ Function.update s.indegree v _ w = 0
      rw [happend, List.mem_append, List.mem_singleton, h.zero_iff w hw]
      by_cases hwv : w = v
      · subst hwv
        rw [Function.update_self]
        exact iff_of_true (.inr rfl) hzero
      · rw [Function.update_of_ne hwv]
        exact or_iff_left hwv
  next hzero =>
    refine ⟨h.nodup, h.mem, hdegree', ?_, h.sorted, hpositive⟩
    intro w hw
    show w ∈ s.order ++ s.ready ↔ Function.update s.indegree v _ w = 0
    by_cases hwv : w = v
    · subst hwv
      rw [Function.update_self]
      exact iff_of_false hnot hzero
    · rw [Function.update_of_ne hwv]
      exact h.zero_iff w hw

theorem Inv.visitAll (h : Inv verts pred s pending) (hmem : ∀ v ∈ pending, v ∈ verts) :
    Inv verts pred (pending.foldl (Kahn.visit size) s) [] := by
  induction pending generalizing s with
  | nil => exact h
  | cons v pending ih =>
    exact ih (h.visit (hmem v List.mem_cons_self)) fun w hw => hmem w (List.mem_cons_of_mem v hw)

theorem visitAll_order (l : List V) (s : State V) :
    (l.foldl (visit size) s).order = s.order := by
  induction l generalizing s with
  | nil => rfl
  | cons v l ih => exact ih (visit size s v)

/-- No vertex is output twice, so the loop ends after as many vertices as there are. -/
theorem Inv.loop (hg : Multigraph verts pred succ) (size fuel : Nat) (h : Inv verts pred s [])
    (hfuel : verts.length ≤ s.order.length + fuel) :
    ∃ s', Kahn.loop size succ fuel s = some s' ∧ Inv verts pred s' [] ∧ s'.ready = [] := by
  induction fuel generalizing s with
  | zero =>
    have hlen := (List.subperm_of_subset h.nodup h.mem).length_le
    rw [List.length_append] at hlen
    have hready : s.ready = [] := List.eq_nil_of_length_eq_zero (by omega)
    refine ⟨s, ?_, h, hready⟩
    unfold Kahn.loop
    rw [hready]
  | succ fuel ih =>
    cases hready : s.ready with
    | nil =>
      refine ⟨s, ?_, h, hready⟩
      unfold Kahn.loop
      rw [hready]
    | cons v rest =>
      have hv : v ∈ verts := h.mem v (by rw [hready]; simp)
      have hnext : Inv verts pred ((succ v).foldl (Kahn.visit size) (Kahn.output s v rest)) [] :=
        (h.output hg hready).visitAll (hg.succ_mem v hv)
      obtain ⟨s', hloop, hinv, hempty⟩ := ih hnext (by
        rw [visitAll_order]
        show verts.length ≤ (s.order ++ [v]).length + fuel
        rw [List.length_append, List.length_singleton]
        omega)
      refine ⟨s', ?_, hinv, hempty⟩
      unfold Kahn.loop
      rw [hready]
      exact hloop

/-! ## What is output -/

/-- With the queue empty, a vertex was output exactly if all it depends on was. -/
theorem Inv.mem_iff (h : Inv verts pred s []) (hready : s.ready = []) (hv : v ∈ verts) :
    v ∈ s.order ↔ ∀ p ∈ pred v, p ∈ s.order := by
  have hzero := h.zero_iff v hv
  rw [hready, List.append_nil, h.degree v hv, List.count_nil, Nat.add_zero,
    List.countP_eq_zero] at hzero
  rw [hzero]
  simp

/-- The dependencies of a vertex that is not blocked are well founded, so it is output once they
are. -/
theorem Inv.mem_of_not_blocked (hg : Multigraph verts pred succ) (h : Inv verts pred s [])
    (hready : s.ready = []) (hv : v ∈ verts) (hfree : ¬ Blocked verts pred v) : v ∈ s.order := by
  -- The induction is on the vertices that `v` depends on, a finite set without cycles.
  let reach : Type u := { w : V // w ∈ verts ∧ ReflTransGen (Depends verts pred) v w }
  let before : reach → reach → Prop := fun a b => TransGen (Depends verts pred) b.1 a.1
  have hfin : Finite reach := by
    have hverts : Finite { w : V // w ∈ verts } := Finite.of_fintype _
    exact Finite.of_injective (fun a : reach => (⟨a.1, a.2.1⟩ : { w : V // w ∈ verts }))
      fun a b hab => Subtype.ext (Subtype.mk.inj hab)
  have htrans : IsTrans reach before := ⟨fun a b c hab hbc => hbc.trans hab⟩
  have hirrefl : Std.Irrefl before := ⟨fun a haa => hfree ⟨a.1, a.2.2, haa⟩⟩
  have hwf : WellFounded before := Finite.wellFounded_of_trans_of_irrefl before
  have hall : ∀ a : reach, a.1 ∈ s.order := by
    intro a
    induction a using hwf.induction with
    | _ a ih =>
      obtain ⟨w, hw, hreach⟩ := a
      refine (h.mem_iff hready hw).mpr ?_
      intro p hp
      have hstep : Depends verts pred w p := ⟨hw, hp⟩
      exact ih ⟨p, hg.pred_mem w hw p hp, hreach.tail hstep⟩ (.single hstep)
  exact hall ⟨v, hv, .refl⟩

theorem Inv.mem_order_iff (hg : Multigraph verts pred succ) (h : Inv verts pred s [])
    (hready : s.ready = []) (hv : v ∈ verts) : v ∈ s.order ↔ ¬ Blocked verts pred v := by
  have hnodup : s.order.Nodup := (List.nodup_append.mp h.nodup).1
  exact ⟨fun hmem => h.sorted.not_blocked hnodup hmem, h.mem_of_not_blocked hg hready hv⟩

/-- The number of vertices output. -/
theorem Inv.length_order (hg : Multigraph verts pred succ) (h : Inv verts pred s [])
    (hready : s.ready = []) :
    s.order.length = {v | v ∈ verts ∧ ¬ Blocked verts pred v}.ncard := by
  have hnodup : s.order.Nodup := (List.nodup_append.mp h.nodup).1
  have hset : {v | v ∈ verts ∧ ¬ Blocked verts pred v} = (s.order.toFinset : Set V) := by
    ext v
    rw [List.coe_toFinset, Set.mem_ofPred_eq, Set.mem_ofPred_eq]
    constructor
    · rintro ⟨hv, hfree⟩
      exact (h.mem_order_iff hg hready hv).mpr hfree
    · intro hmem
      have hv := h.mem v (List.mem_append_left _ hmem)
      exact ⟨hv, (h.mem_order_iff hg hready hv).mp hmem⟩
  rw [hset, Set.ncard_coe_finset, List.toFinset_card_of_nodup hnodup]

/-- Vertices are missing from the output exactly when there is a cycle. -/
theorem Inv.length_ne_iff (hg : Multigraph verts pred succ) (h : Inv verts pred s [])
    (hready : s.ready = []) :
    s.order.length ≠ verts.length ↔ ∃ c, TransGen (Depends verts pred) c c := by
  have hnodup : s.order.Nodup := (List.nodup_append.mp h.nodup).1
  have hsubset : s.order ⊆ verts := fun v hv => h.mem v (List.mem_append_left _ hv)
  have hsub := List.subperm_of_subset hnodup hsubset
  constructor
  · intro hne
    by_contra hacyclic
    refine hne (Nat.le_antisymm hsub.length_le ?_)
    refine (List.subperm_of_subset hg.nodup fun v hv => ?_).length_le
    refine (h.mem_order_iff hg hready hv).mpr ?_
    rintro ⟨c, _, hcycle⟩
    exact hacyclic ⟨c, hcycle⟩
  · rintro ⟨c, hcycle⟩ heq
    obtain ⟨p, hstep, _⟩ := TransGen.head'_iff.mp hcycle
    have hc : c ∈ s.order := (hsub.perm_of_length_le heq.ge).mem_iff.mpr hstep.1
    exact (h.mem_order_iff hg hready hstep.1).mp hc ⟨c, .refl, hcycle⟩

/-- Before the loop: every vertex has its in-degree, and those without edges are queued. -/
theorem Inv.start {queue : List V} (hn : verts.Nodup) (hperm : queue.Perm verts)
    {indegree : V → Nat} (hdegree : ∀ v ∈ verts, indegree v = (pred v).length) :
    Inv verts pred
      { ready := queue.filter (indegree · = 0), indegree, order := [], decremented := [] } [] := by
  refine ⟨?_, ?_, ?_, ?_, sorted_nil, ?_⟩
  · exact (hperm.nodup_iff.mpr hn).filter _
  · intro v hv
    exact hperm.subset (List.mem_of_mem_filter hv)
  · intro v hv
    show indegree v = (pred v).countP (· ∉ []) + [].count v
    rw [hdegree v hv, List.count_nil, Nat.add_zero]
    exact (List.countP_eq_length.mpr fun p _ => by simp).symm
  · intro v hv
    show v ∈ [] ++ queue.filter _ ↔ _
    rw [List.nil_append, List.mem_filter, decide_eq_true_eq]
    exact and_iff_right (hperm.mem_iff.mpr hv)
  · intro k hk
    exact absurd hk List.not_mem_nil

end Kahn
