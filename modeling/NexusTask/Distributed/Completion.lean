import NexusTask.Distributed.Unreachable
import NexusTask.Executor.Waiting

/-!
# `DistributedExecutor::wait_for_completion`

The local executor is waited for first, then the executor of one node after the other. While it
waits for a node the call holds the mutex of the table; before that, and all the time on the
executors themselves, everything goes on, so that an executor may have started new tasks by the time
the next one is found idle. The tasks that were there when the call was made are finished for good
nevertheless, each executor being found so at a moment of its own.

The executors are those of the executor model, one for each reference. The calls that `submit` and
`broadcast` make of them are steps of theirs.
-/

set_option autoImplicit false

namespace NexusTask
namespace Distributed

open Transition

variable {φ ω κ : Type} {m n : Nat}

/-! ## The system -/

deriving instance DecidableEq for NodeInfo

/-- Where a call of `wait_for_completion` is. With `onNodes` it holds `nodes_mutex_`, and these
nodes are still to come; when none is left it returns. -/
inductive Waiter
  | idle
  | onLocal
  | lock
  | onNodes (rest : List NodeInfo)
  deriving DecidableEq

/-- The executor it is waiting for. A node without one is passed over. -/
def Waiter.awaits : Waiter → Option ExecutorRef
  | .onLocal => some .localExecutor
  | .onNodes (node :: _) => node.remoteExecutor
  | .idle | .lock | .onNodes [] => none

/-- Where it goes next, with this table. -/
def Waiter.next (nodes : List NodeInfo) : Waiter → Waiter
  | .idle => .onLocal
  | .onLocal => .lock
  | .lock => .onNodes nodes
  | .onNodes (_ :: rest) => .onNodes rest
  | .onNodes [] => .idle

def Waiter.holdsMutex : Waiter → Bool
  | .onNodes _ => true
  | .idle | .onLocal | .lock => false

def Waiter.isIdle : Waiter → Bool
  | .idle => true
  | .onLocal | .lock | .onNodes _ => false

/-- The cluster, the executors, and one thread that calls `wait_for_completion`. -/
structure Fleet (φ ω κ : Type) (m n : Nat) where
  cluster : Cluster φ ω κ
  executors : ExecutorRef → Executor.State m n
  waiter : Waiter

/-- Executors just constructed. -/
def Fleet.start (cluster : Cluster φ ω κ) : Fleet φ ω κ m n where
  cluster := cluster
  executors _ := Executor.start m n
  waiter := .idle

/-- The operations that write to the table. -/
def ClusterOp.changesNodes : ClusterOp φ ω κ → Bool
  | .addNode _ _ _ | .removeNode _ _ | .attachInMemoryExecutor _ _ _ _ | .updateNodeMetrics _ _ _
  | .markNodeUnreachable _ _ => true
  | .setPolicy _ | .enableInMemoryTransport | .submit _ _ _ _ | .submitTo _ _ _ _ => false

inductive FleetAction (φ ω κ : Type) (m n : Nat)
  | cluster (op : ClusterOp φ ω κ)
  | executor (e : ExecutorRef) (a : Executor.Action m n)
  /-- The next step of the thread that waits, at clock reading `now`. -/
  | waiter (now : Int)

/-- The action is one of the client's. -/
def isOf (c : Fin m) : Executor.Action m n → Bool
  | .call c' _ | .client c' _ => c' == c
  | .poll _ | .scheduler | .take _ _ | .worker _ _ _ => false

/-- The next step of `TaskExecutor::wait_for_completion`: the call, or a turn of its loop. -/
def waitAction (s : Executor.State m n) (c : Fin m) (now : Int) : Executor.Action m n :=
  if s.clients c = .idle then .call c .waitForCompletion else .client c now

/-- The other operations leave the table alone. -/
theorem Cluster.nodes_of_step {s t : Cluster φ ω κ} {op : ClusterOp φ ω κ}
    (hop : op.changesNodes = false) (h : clusterStep s op = some t) :
    t.executor.nodes = s.executor.nodes := by
  cases op with
  | submit reloaded func name submission =>
    obtain rfl := Option.some.inj h
    exact DistributedExecutor.submit_nodes reloaded func name submission s.world
  | setPolicy | enableInMemoryTransport | submitTo =>
    obtain rfl := Option.some.inj h
    rfl
  | addNode | removeNode | attachInMemoryExecutor | updateNodeMetrics | markNodeUnreachable =>
    exact absurd hop (by simp [ClusterOp.changesNodes])

/-- A client that waited and is idle again has had the answer true. -/
theorem allCompleted_of_returned {s t : Executor.State m n} {c : Fin m} {now : Int}
    (hc : s.clients c = .waiting) (h : Executor.step s (.client c now) = some t)
    (hidle : t.clients c = .idle) : s.graph.allCompleted = true := by
  simp only [Executor.step, Executor.clientStep, hc] at h
  obtain rfl := Option.some.inj h
  by_contra hnot
  rw [if_neg hnot] at hidle
  exact absurd hidle (by simp [Executor.State.setClient])

namespace Fleet

variable (c : Fin m)

/-- The executor that takes part in an action, and its step. -/
def executorAction (s : Fleet φ ω κ m n) :
    FleetAction φ ω κ m n → Option (ExecutorRef × Executor.Action m n)
  | .cluster _ => none
  | .executor e a => some (e, a)
  | .waiter now => s.waiter.awaits.map fun e => (e, waitAction (s.executors e) c now)

def setExecutor (s : Fleet φ ω κ m n) (e : ExecutorRef) (x : Executor.State m n) :
    Fleet φ ω κ m n :=
  { s with executors := Function.update s.executors e x }

/-- The thread that waits is client `c` of every executor. -/
def step (s : Fleet φ ω κ m n) : FleetAction φ ω κ m n → Option (Fleet φ ω κ m n)
  | .cluster op =>
      if s.waiter.holdsMutex && op.changesNodes then none
      else (clusterStep s.cluster op).map fun cluster => { s with cluster }
  | .executor e a =>
      if isOf c a && !s.waiter.isIdle then none
      else (Executor.step (s.executors e) a).map (s.setExecutor e)
  | .waiter now =>
      match s.waiter.awaits with
      | none => some { s with waiter := s.waiter.next s.cluster.executor.nodes }
      | some e =>
          (Executor.step (s.executors e) (waitAction (s.executors e) c now)).map fun x =>
            -- `all_completed` has returned true if the client is idle again.
            if (s.executors e).clients c = .waiting ∧ x.clients c = .idle then
              { s.setExecutor e x with waiter := s.waiter.next s.cluster.executor.nodes }
            else s.setExecutor e x

/-- The executors take settling steps. -/
def Settling (s : Fleet φ ω κ m n) (a : FleetAction φ ω κ m n) : Prop :=
  ∀ p ∈ executorAction c s a, Executor.Settling (s.executors p.1) p.2

instance (s : Fleet φ ω κ m n) (a : FleetAction φ ω κ m n) : Decidable (Settling c s a) :=
  inferInstanceAs (Decidable (∀ p ∈ executorAction c s a, _))

variable {c} {s t : Fleet φ ω κ m n} {a : FleetAction φ ω κ m n}

/-- What an action does to the executors. -/
theorem executors_of_step (h : step c s a = some t) :
    t.executors = s.executors ∨ ∃ e b x, executorAction c s a = some (e, b) ∧
      Executor.step (s.executors e) b = some x ∧
        t.executors = Function.update s.executors e x := by
  cases a with
  | cluster op =>
    simp only [step] at h
    split at h
    next => exact absurd h (by simp)
    next =>
      obtain ⟨cluster, _, rfl⟩ := Option.map_eq_some_iff.mp h
      exact .inl rfl
  | executor e b =>
    simp only [step] at h
    split at h
    next => exact absurd h (by simp)
    next =>
      obtain ⟨x, hx, rfl⟩ := Option.map_eq_some_iff.mp h
      exact .inr ⟨e, b, x, rfl, hx, rfl⟩
  | waiter now =>
    simp only [step] at h
    split at h
    next =>
      obtain rfl := Option.some.inj h
      exact .inl rfl
    next e hawaits =>
      obtain ⟨x, hx, rfl⟩ := Option.map_eq_some_iff.mp h
      refine .inr ⟨e, _, x, ?_, hx, ?_⟩
      · rw [executorAction, hawaits]
        rfl
      · split <;> rfl

/-- One executor over one action. -/
theorem executor_of_step (hok : Settling c s a) (h : step c s a = some t) (e : ExecutorRef) :
    t.executors e = s.executors e ∨ ∃ b, Executor.Settling (s.executors e) b ∧
      Executor.step (s.executors e) b = some (t.executors e) := by
  rcases executors_of_step h with hsame | ⟨e', b, x, haction, hx, hupdate⟩
  · exact .inl (congrFun hsame e)
  · by_cases he : e = e'
    · subst he
      refine .inr ⟨b, hok _ haction, ?_⟩
      rw [hupdate, Function.update_self]
      exact hx
    · left
      rw [hupdate, Function.update_of_ne he]

/-- **The rule for one executor.** What its settling steps preserve, the actions of the fleet
preserve. -/
theorem preserved_executor {I : Executor.State m n → Prop} (e : ExecutorRef)
    (hI : Preserved Executor.step Executor.Settling I) :
    Preserved (step (φ := φ) (ω := ω) (κ := κ) c) (Settling c) (fun s => I (s.executors e)) := by
  intro s a t hs hok hstep
  show I (t.executors e)
  rcases executor_of_step hok hstep e with hsame | ⟨b, hb, hx⟩
  · rw [hsame]
    exact hs
  · exact hI _ b _ hs hb hx

/-- What an action does to the thread that waits: it moves on when it is waiting for nobody, or when
`all_completed` of the executor it is waiting for returns true to it. -/
theorem waiter_of_step (h : step c s a = some t) :
    (t.waiter = s.waiter ∧ (s.waiter.holdsMutex = true →
      t.cluster.executor.nodes = s.cluster.executor.nodes)) ∨
    (t.waiter = s.waiter.next s.cluster.executor.nodes ∧
      t.cluster.executor.nodes = s.cluster.executor.nodes ∧
      ∀ e, s.waiter.awaits = some e → (s.executors e).clients c = .waiting ∧
        (s.executors e).graph.allCompleted = true ∧
        ∃ now, executorAction c s a = some (e, .client c now)) := by
  cases a with
  | cluster op =>
    simp only [step] at h
    split at h
    next => exact absurd h (by simp)
    next hfree =>
      obtain ⟨cluster, hcluster, rfl⟩ := Option.map_eq_some_iff.mp h
      refine .inl ⟨rfl, fun hholds => ?_⟩
      rw [hholds, Bool.true_and, Bool.not_eq_true] at hfree
      exact Cluster.nodes_of_step hfree hcluster
  | executor e b =>
    simp only [step] at h
    split at h
    next => exact absurd h (by simp)
    next =>
      obtain ⟨x, _, rfl⟩ := Option.map_eq_some_iff.mp h
      exact .inl ⟨rfl, fun _ => rfl⟩
  | waiter now =>
    simp only [step] at h
    split at h
    next hawaits =>
      obtain rfl := Option.some.inj h
      refine .inr ⟨rfl, rfl, fun e he => ?_⟩
      exact absurd (hawaits.symm.trans he) (by simp)
    next e hawaits =>
      obtain ⟨x, hx, rfl⟩ := Option.map_eq_some_iff.mp h
      split
      next hreturned =>
        refine .inr ⟨rfl, rfl, fun e' he' => ?_⟩
        obtain rfl := Option.some.inj (hawaits.symm.trans he')
        have hasking : waitAction (s.executors e) c now = .client c now := by
          rw [waitAction, hreturned.1]
          rfl
        refine ⟨hreturned.1, ?_, now, ?_⟩
        · rw [hasking] at hx
          exact allCompleted_of_returned hreturned.1 hx hreturned.2
        · rw [executorAction, hawaits, Option.map_some, hasking]
      next => exact .inl ⟨rfl, fun _ => rfl⟩

end Fleet

/-! ## What is finished -/

/-- These tasks of an executor are finished for good. -/
def Done (x : Executor.State m n) (ids : List TaskId) : Prop :=
  ∀ u ∈ ids, ∃ st, Executor.Final st x u

/-- What holds of every executor. -/
structure Keeps (ids : List TaskId) (x : Executor.State m n) : Prop where
  settled : Executor.Settled x
  known : ∀ u ∈ ids, u ∈ x.graph.ids

theorem keeps_step (ids : List TaskId) :
    Preserved (Executor.step (m := m) (n := n)) Executor.Settling (Keeps ids) := by
  intro x b y h hok hstep
  have hm := Executor.Move.of_step hstep
  exact ⟨h.settled.move hok hm, fun u hu => hm.ids_keep (h.known u hu)⟩

theorem Done.step {x y : Executor.State m n} {b : Executor.Action m n} {ids : List TaskId}
    (h : Done x ids) (hx : Executor.Settled x) (hok : Executor.Settling x b)
    (hstep : Executor.step x b = some y) : Done y ids := by
  intro u hu
  obtain ⟨st, hfinal⟩ := h u hu
  exact ⟨st, hfinal.move hx hok (.of_step hstep)⟩

/-- The answer true of `all_completed`. -/
theorem Keeps.done_of_answer {x : Executor.State m n} {ids : List TaskId} {c : Fin m} {now : Int}
    (h : Keeps ids x) (hok : Executor.Settling x (.client c now)) (hc : x.clients c = .waiting)
    (hall : x.graph.allCompleted = true) : Done x ids :=
  fun u hu => ⟨_, h.settled.final_of_poll hok.final hc hall (h.known u hu)⟩

namespace Fleet

variable {c : Fin m} {s t : Fleet φ ω κ m n} {a : FleetAction φ ω κ m n}
  {ids : ExecutorRef → List TaskId}

/-- The invariant of a call that is to wait for these tasks. -/
structure Awaits (ids : ExecutorRef → List TaskId) (s : Fleet φ ω κ m n) : Prop where
  keeps : ∀ e, Keeps (ids e) (s.executors e)
  onLocal : s.waiter = .lock ∨ s.waiter.holdsMutex = true →
    Done (s.executors .localExecutor) (ids .localExecutor)
  onNodes : ∀ rest, s.waiter = .onNodes rest →
    ∃ past, s.cluster.executor.nodes = past ++ rest ∧
      ∀ node ∈ past, ∀ e, node.remoteExecutor = some e → Done (s.executors e) (ids e)

theorem awaits_step (ids : ExecutorRef → List TaskId) :
    Preserved (step (φ := φ) (ω := ω) (κ := κ) c) (Settling c) (Awaits (n := n) ids) := by
  intro s a t h hok hstep
  have hkeeps : ∀ e, Keeps (ids e) (t.executors e) := fun e =>
    preserved_executor e (keeps_step (ids e)) s a t (h.keeps e) hok hstep
  have hdone : ∀ e, Done (s.executors e) (ids e) → Done (t.executors e) (ids e) := by
    intro e he
    rcases executor_of_step hok hstep e with hsame | ⟨b, hb, hx⟩
    · rw [hsame]
      exact he
    · exact he.step (h.keeps e).settled hb hx
  rcases waiter_of_step hstep with ⟨hwaiter, htable⟩ | ⟨hwaiter, htable, hanswered⟩
  · refine ⟨hkeeps, fun hlocal => hdone _ (h.onLocal (hwaiter ▸ hlocal)), fun rest hrest => ?_⟩
    rw [hwaiter] at hrest
    obtain ⟨past, hnodes, hpast⟩ := h.onNodes rest hrest
    refine ⟨past, ?_, fun node hnode e he => hdone e (hpast node hnode e he)⟩
    rw [htable (by rw [hrest]; rfl)]
    exact hnodes
  · have hanswer : ∀ e, s.waiter.awaits = some e → Done (t.executors e) (ids e) := by
      intro e he
      obtain ⟨hc, hall, now, haction⟩ := hanswered e he
      exact hdone e ((h.keeps e).done_of_answer (hok _ haction) hc hall)
    cases hat : s.waiter with
    | idle =>
      rw [hat] at hwaiter
      refine ⟨hkeeps, fun hlocal => ?_, fun rest hrest => ?_⟩
      · rw [hwaiter] at hlocal
        simp [Waiter.next, Waiter.holdsMutex] at hlocal
      · exact absurd (hwaiter.symm.trans hrest) (by simp [Waiter.next])
    | onLocal =>
      rw [hat] at hwaiter hanswer
      refine ⟨hkeeps, fun _ => hanswer _ rfl, fun rest hrest => ?_⟩
      exact absurd (hwaiter.symm.trans hrest) (by simp [Waiter.next])
    | lock =>
      rw [hat] at hwaiter
      refine ⟨hkeeps, fun _ => hdone _ (h.onLocal (.inl hat)), fun rest hrest => ?_⟩
      obtain rfl : s.cluster.executor.nodes = rest := Waiter.onNodes.inj (hwaiter.symm.trans hrest)
      exact ⟨[], by rw [htable]; rfl, fun _ hnode => absurd hnode List.not_mem_nil⟩
    | onNodes nodes =>
      have hlocal := hdone _ (h.onLocal (.inr (by rw [hat]; rfl)))
      rw [hat] at hwaiter hanswer
      cases nodes with
      | nil =>
        refine ⟨hkeeps, fun _ => hlocal, fun rest hrest => ?_⟩
        exact absurd (hwaiter.symm.trans hrest) (by simp [Waiter.next])
      | cons node nodes =>
        refine ⟨hkeeps, fun _ => hlocal, fun rest hrest => ?_⟩
        obtain rfl : nodes = rest := Waiter.onNodes.inj (hwaiter.symm.trans hrest)
        obtain ⟨past, hnodes, hpast⟩ := h.onNodes _ hat
        refine ⟨past ++ [node], ?_, fun node' hnode' e he => ?_⟩
        · rw [htable, hnodes, List.append_assoc]
          rfl
        · rcases List.mem_append.mp hnode' with hold | hlast
          · exact hdone e (hpast node' hold e he)
          · obtain rfl := List.mem_singleton.mp hlast
            exact hanswer e he

/-- Before the call. -/
theorem awaits_idle (hkeeps : ∀ e, Keeps (ids e) (s.executors e)) (hidle : s.waiter = .idle) :
    Awaits ids s where
  keeps := hkeeps
  onLocal h := by
    rw [hidle] at h
    simp [Waiter.holdsMutex] at h
  onNodes rest h := absurd (hidle.symm.trans h) (by simp)

/-- When it returns. -/
theorem Awaits.done (h : Awaits ids s) (hreturns : s.waiter = .onNodes []) {e : ExecutorRef}
    (he : e = .localExecutor ∨ ∃ node ∈ s.cluster.executor.nodes, node.remoteExecutor = some e) :
    Done (s.executors e) (ids e) := by
  rcases he with rfl | ⟨node, hnode, hexec⟩
  · exact h.onLocal (.inr (by rw [hreturns]; rfl))
  · obtain ⟨past, hnodes, hpast⟩ := h.onNodes [] hreturns
    rw [hnodes, List.append_nil] at hnode
    exact hpast node hnode e hexec

end Fleet

/-- **The cluster is idle.** In a settling run, when `wait_for_completion` returns, every task that
the local executor or the executor of a node of the table had when the call was made has a terminal
status. It keeps that status in every continuation and is not started again, although the executors
were found idle at different times. -/
theorem completed_for_good {c : Fin m} {cluster : Cluster φ ω κ} {s t z : Fleet φ ω κ m n}
    {as bs cs : List (FleetAction φ ω κ m n)}
    (run : Run (Fleet.step c) (Fleet.Settling c) (.start cluster) as s)
    (hcall : s.waiter = .idle) (waits : Run (Fleet.step c) (Fleet.Settling c) s bs t)
    (hreturns : t.waiter = .onNodes []) (rest : Run (Fleet.step c) (Fleet.Settling c) t cs z)
    {e : ExecutorRef} (he : e = .localExecutor ∨
      ∃ node ∈ t.cluster.executor.nodes, node.remoteExecutor = some e) :
    ∀ u ∈ (s.executors e).graph.ids, ∃ st, st.isTerminal = true ∧
      ((t.executors e).graph.task u).status = st ∧ ((z.executors e).graph.task u).status = st ∧
        (z.executors e).started.count u = (t.executors e).started.count u := by
  intro u hu
  have hsettled : ∀ e, Executor.Settled (s.executors e) := fun e =>
    (run.invariant (Fleet.preserved_executor e (keeps_step [])) ⟨Executor.settled_start,
      fun _ hu => absurd hu List.not_mem_nil⟩).settled
  have hawaits : Fleet.Awaits (fun e => (s.executors e).graph.ids) t :=
    waits.invariant (Fleet.awaits_step _)
      (Fleet.awaits_idle (fun e => ⟨hsettled e, fun _ hu => hu⟩) hcall)
  obtain ⟨st, hfinal⟩ := hawaits.done hreturns he u hu
  have hkept : Preserved (Executor.step (m := m) (n := n)) Executor.Settling (fun x =>
      Executor.Settled x ∧ Executor.Final st x u ∧
        x.started.count u = (t.executors e).started.count u) := by
    intro x b y hx hok hstep
    obtain ⟨hxs, hlasting, hcount⟩ := hx
    have hm := Executor.Move.of_step hstep
    exact ⟨hxs.move hok hm, hlasting.move hxs hok hm,
      (hlasting.started_move hxs hm).trans hcount⟩
  obtain ⟨_, hend, hcount⟩ := rest.invariant (Fleet.preserved_executor e hkept)
    ⟨(hawaits.keeps e).settled, hfinal, rfl⟩
  exact ⟨st, hfinal.terminal, hfinal.status, hend.status, hcount⟩

namespace Fleet

/-- The steps of one executor. -/
def ofExecutor (e : ExecutorRef) (as : List (Executor.Action 1 1)) :
    List (FleetAction Unit Unit Unit 1 1) := as.map (.executor e)

/-- One node. -/
def oneNode : Cluster Unit Unit Unit :=
  (exec clusterStep free (.start fun _ => 1) [.addNode "10.0.0.2" 7000 4,
    .attachInMemoryExecutor "10.0.0.2" 7000 0 0, .enableInMemoryTransport]).get (by decide)

/-- A task is running on the local executor, and one is queued on the node's. -/
def bothBusy : Fleet Unit Unit Unit 1 1 :=
  (exec (step 0) (Settling 0) (.start oneNode)
    (ofExecutor .localExecutor (Executor.Schedule.submit {} ++ .take 0 1 ::
        Executor.Schedule.worker 6) ++
      ofExecutor (.attached 0) (Executor.Schedule.submit {}))).get (by decide +kernel)

/-- The local executor is asked twice. Its task has completed by the second time; the other one has
when the mutex is taken. -/
def bothDone : Fleet Unit Unit Unit 1 1 :=
  (exec (step 0) (Settling 0) bothBusy
    ([.waiter 0, .waiter 0, .waiter 0] ++
      ofExecutor .localExecutor (Executor.Schedule.worker 7) ++ [.waiter 0] ++
      ofExecutor (.attached 0) (.take 0 1 :: Executor.Schedule.worker 13) ++
      [.waiter 0, .waiter 0, .waiter 0])).get (by decide +kernel)

end Fleet

theorem completed_for_good_both :
    let later := (exec (Fleet.step 0) (Fleet.Settling 0) Fleet.bothDone
      [.waiter 0, .executor .localExecutor (.poll [])]).get (by decide +kernel)
    ∀ u ∈ (Fleet.bothBusy.executors (.attached 0)).graph.ids, ∃ st, st.isTerminal = true ∧
      ((Fleet.bothDone.executors (.attached 0)).graph.task u).status = st ∧
      ((later.executors (.attached 0)).graph.task u).status = st ∧
      (later.executors (.attached 0)).started.count u =
        (Fleet.bothDone.executors (.attached 0)).started.count u :=
  completed_for_good (.of_isSome (by decide +kernel)) (by decide +kernel) (.of_isSome _)
    (by decide +kernel) (.of_isSome _) (by decide +kernel)

end Distributed
end NexusTask
