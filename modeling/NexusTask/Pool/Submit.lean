import Mathlib.Algebra.BigOperators.Fin
import NexusTask.Pool.Moves

/-!
# What `submit` leaves behind

`submit` looks at `running_` twice, when it is called and again whenever its wait for room in the
global queue has timed out. A pool found stopped the first time makes it throw; the second time it
leaves its loop, notifies, and returns like a call that has placed its task.

`Watched` follows the calls of all clients from any state of the pool, and records of every `submit`
that ends what its steps have added to the queues.
-/

set_option autoImplicit false

namespace NexusTask
namespace Pool

open Transition

variable {m n : Nat} {α : Type}

/-! ## The calls -/

namespace ClientPc

/-- The task and the priority of a `submit` that has not placed its task. -/
def submits : ClientPc n α → Option (α × TaskPriority)
  | .testRunning .submit x p | .pickWorker .submit x p | .tryLocal .submit x p _
  | .tryGlobal .submit x p | .waitEnqueue x p | .recheck x p => some (x, p)
  | _ => none

def isTestRunning : ClientPc n α → Bool
  | .testRunning .. => true
  | _ => false

def isRecheck : ClientPc n α → Bool
  | .recheck .. => true
  | _ => false

def isIdle : ClientPc n α → Bool
  | .idle => true
  | _ => false

end ClientPc

/-- The client whose step an action is. -/
def Action.client? : Action m n α → Option (Fin m)
  | .call c _ | .client c | .wake c _ | .timeOut c => some c
  | .worker _ | .spurious _ => none

/-- What the queues of `t` have more than those of `s`. -/
def addedBy (s t : State m n α) : Multiset (QueueRef n × α) :=
  ∑ r, (((t.queues r).drop (s.queues r).length).map fun x => (r, x) : Multiset (QueueRef n × α))

/-- A client's current call, what its steps have added to the queues, and whether it has found the
pool stopped after a wait. -/
structure Calling (n : Nat) (α : Type) where
  op : Option (Call α) := none
  added : Multiset (QueueRef n × α) := 0
  foundStopped : Bool := false

/-- A `submit` that has ended. -/
structure SubmitEnd (n : Nat) (α : Type) where
  task : α
  priority : TaskPriority
  threw : Bool
  added : Multiset (QueueRef n × α)
  foundStopped : Bool

/-- It placed the task in one queue, at its priority, or threw and placed nothing. -/
def SubmitEnd.PlacedOrThrew (e : SubmitEnd n α) : Prop :=
  e.threw = false ∧ (∃ r : QueueRef n, r.2 = e.priority ∧ e.added = {(r, e.task)}) ∨
  e.threw = true ∧ e.added = 0

structure Watched (m n : Nat) (α : Type) where
  pool : State m n α
  calls : Fin m → Calling n α
  ended : List (SubmitEnd n α)

namespace Watched

/-- Calls that are in progress in `s` are not followed. -/
def start (s : State m n α) : Watched m n α := { pool := s, calls := fun _ => {}, ended := [] }

/-- Client `c`, in call `k`, has moved, and the pool is `t` now. -/
def observe (o : Watched m n α) (c : Fin m) (k : Calling n α) (t : State m n α) : Watched m n α :=
  let k' := { k with
    added := k.added + addedBy o.pool t
    foundStopped := k.foundStopped || (o.pool.clients c).isRecheck && !o.pool.running }
  { pool := t
    calls := Function.update o.calls c (if (t.clients c).isIdle then {} else k')
    ended := match k.op, (t.clients c).isIdle with
      | some (.submit x p), true =>
          o.ended ++ [{ task := x, priority := p, threw := (o.pool.clients c).isTestRunning,
                        added := k'.added, foundStopped := k'.foundStopped }]
      | _, _ => o.ended }

def step (o : Watched m n α) (a : Action m n α) : Option (Watched m n α) :=
  (Pool.step o.pool a).map fun t =>
    match a with
    | .call c op => o.observe c { op := some op } t
    | .client c | .wake c _ | .timeOut c => o.observe c (o.calls c) t
    | .worker _ | .spurious _ => { o with pool := t }

end Watched

/-! ## One step of a `submit` -/

theorem addedBy_of_eq {s t : State m n α} (h : t.queues = s.queues) : addedBy s t = 0 := by
  refine Finset.sum_eq_zero fun r _ => ?_
  rw [h, List.drop_length]
  rfl

theorem addedBy_of_update {s t : State m n α} {r : QueueRef n} {x : α}
    (h : t.queues = Function.update s.queues r (s.queues r ++ [x])) : addedBy s t = {(r, x)} := by
  have hother : ∀ q ∈ Finset.univ, q ≠ r →
      (((t.queues q).drop (s.queues q).length).map fun x => (q, x) : Multiset (QueueRef n × α))
        = 0 := by
    intro q _ hq
    rw [h, Function.update_of_ne hq, List.drop_length]
    rfl
  unfold addedBy
  rw [Finset.sum_eq_single r hother fun hnot => absurd (Finset.mem_univ r) hnot, h,
    Function.update_self, List.drop_left]
  rfl

/-- What a step of a `submit` that has not placed its task can do. -/
inductive SubmitMove (s t : State m n α) (c : Fin m) (x : α) (p : TaskPriority) : Prop
  | throws (old : s.clients c = .testRunning .submit x p) (idle : t.clients c = .idle)
      (queues : t.queues = s.queues)
  | goesOn (running : (s.clients c).isRecheck = true → s.running = true)
      (next : (t.clients c).submits = some (x, p)) (queues : t.queues = s.queues)
  | places {r : QueueRef n} (tries : (s.clients c).isRecheck = false) (level : r.2 = p)
      (next : t.clients c = .notify x true)
      (queues : t.queues = Function.update s.queues r (s.queues r ++ [x]))
  | givesUp (old : s.clients c = .recheck x p) (stopped : s.running = false)
      (next : t.clients c = .notify x false) (queues : t.queues = s.queues)

namespace SubmitMove

variable {s t : State m n α} {c : Fin m} {x : α} {p : TaskPriority}

/-- One try to put the task into a queue. -/
theorem of_place {r : QueueRef n} {full : ClientPc n α} (tries : (s.clients c).isRecheck = false)
    (level : r.2 = p) (hfull : full.submits = some (x, p)) :
    SubmitMove s (s.place c r x full) c x p := by
  unfold State.place
  cases h : tryEnqueue s.queues r x with
  | none =>
    refine .goesOn (fun hr => absurd (tries.symm.trans hr) (by simp)) ?_ rfl
    show ((s.setClient c full).clients c).submits = _
    rw [State.setClient_self]
    exact hfull
  | some q =>
    obtain ⟨_, rfl⟩ := tryEnqueue_eq_some h
    exact .places tries level (State.setClient_self ..) rfl

theorem of_clientStep (hsub : (s.clients c).submits = some (x, p))
    (h : clientStep s c = some t) : SubmitMove s t c x p := by
  -- A step that only moves the program counter.
  have hmove : ∀ {next : Nat} {pc : ClientPc n α},
      ((s.clients c).isRecheck = true → s.running = true) → pc.submits = some (x, p) →
      SubmitMove s ({ s with nextWorker := next }.setClient c pc) c x p := by
    intro next pc hrun hpc
    exact .goesOn hrun (by rw [State.setClient_self]; exact hpc) rfl
  unfold clientStep at h
  split at h
  next => exact absurd h (by simp)
  next kind y q hpc =>
    rw [hpc] at hsub hmove
    cases kind with
    | trySubmit => exact nomatch hsub
    | submit =>
      obtain rfl := Option.some.inj h
      obtain ⟨rfl, rfl⟩ := Prod.mk.inj (Option.some.inj hsub)
      cases hrun : s.running with
      | true => exact hmove (nomatch ·) rfl
      | false => exact .throws hpc (State.setClient_self ..) rfl
  next kind y q hpc =>
    rw [hpc] at hsub hmove
    split at h
    next =>
      obtain rfl := Option.some.inj h
      cases kind with
      | trySubmit => exact nomatch hsub
      | submit => exact hmove (nomatch ·) hsub
    next => exact absurd h (by simp)
  next kind y q target hpc =>
    have htries : (s.clients c).isRecheck = false := by rw [hpc]; rfl
    rw [hpc] at hsub
    obtain rfl := Option.some.inj h
    cases kind with
    | trySubmit => exact nomatch hsub
    | submit =>
      obtain ⟨rfl, rfl⟩ := Prod.mk.inj (Option.some.inj hsub)
      exact .of_place htries rfl rfl
  next kind y q hpc =>
    have htries : (s.clients c).isRecheck = false := by rw [hpc]; rfl
    rw [hpc] at hsub
    obtain rfl := Option.some.inj h
    cases kind with
    | trySubmit => exact nomatch hsub
    | submit =>
      obtain ⟨rfl, rfl⟩ := Prod.mk.inj (Option.some.inj hsub)
      exact .of_place htries rfl rfl
  next y q hpc =>
    have htries : (s.clients c).isRecheck = false := by rw [hpc]; rfl
    rw [hpc] at hsub
    obtain rfl := Option.some.inj h
    obtain ⟨rfl, rfl⟩ := Prod.mk.inj (Option.some.inj hsub)
    exact .of_place htries rfl rfl
  next y q hpc =>
    rw [hpc] at hsub hmove
    obtain rfl := Option.some.inj h
    obtain ⟨rfl, rfl⟩ := Prod.mk.inj (Option.some.inj hsub)
    cases hrun : s.running with
    | true => exact hmove (fun _ => hrun) rfl
    | false => exact .givesUp hpc hrun (State.setClient_self ..) rfl
  all_goals
    next hpc =>
      rw [hpc] at hsub
      exact nomatch hsub

end SubmitMove

/-- The notification ends the call and adds nothing. -/
theorem notify_ends {s t : State m n α} {c : Fin m} {x : α} {placed : Bool}
    (hpc : s.clients c = .notify x placed) (h : clientStep s c = some t) :
    t.clients c = .idle ∧ t.queues = s.queues := by
  simp only [clientStep, hpc] at h
  split at h
  next =>
    obtain rfl := Option.some.inj h
    exact ⟨State.setClient_self .., State.accept_queues x⟩
  next => exact absurd h (by simp)

theorem wake_ends {s t : State m n α} {c : Fin m} {w : Fin n}
    (h : Pool.step s (.wake c w) = some t) :
    (∃ x placed, s.clients c = .notify x placed) ∧ t.clients c = .idle ∧ t.queues = s.queues := by
  simp only [Pool.step] at h
  split at h
  next x placed k hpc _ =>
    obtain rfl := Option.some.inj h
    exact ⟨⟨x, placed, hpc⟩, State.setClient_self .., State.accept_queues x⟩
  next => exact absurd h (by simp)

/-- A client's step changes no other client. -/
theorem clientStep_clients {s t : State m n α} {c : Fin m} (h : clientStep s c = some t) :
    ∃ pc, t.clients = Function.update s.clients c pc := by
  have hset : ∀ {u : State m n α} {pc : ClientPc n α}, some (u.setClient c pc) = some t →
      u.clients = s.clients → ∃ pc, t.clients = Function.update s.clients c pc := by
    intro u pc h hu
    obtain rfl := Option.some.inj h
    exact ⟨pc, by rw [← hu]; rfl⟩
  have hplace : ∀ {r : QueueRef n} {x : α} {full : ClientPc n α},
      some (s.place c r x full) = some t → ∃ pc, t.clients = Function.update s.clients c pc := by
    intro r x full h
    unfold State.place at h
    split at h
    next => exact hset h rfl
    next => exact hset h rfl
  unfold clientStep at h
  split at h
  case h_1 => exact absurd h (by simp)
  case h_3 =>
    split at h
    next => exact hset h rfl
    next => exact absurd h (by simp)
  case h_4 => exact hplace h
  case h_5 => exact hplace h
  case h_6 => exact hplace h
  case h_8 x placed hpc =>
    split at h
    next => exact hset h (State.accept_clients x)
    next => exact absurd h (by simp)
  case h_14 k hpc =>
    split at h
    next =>
      split at h
      next => exact hset h rfl
      next => exact absurd h (by simp)
    next => exact hset h rfl
  all_goals exact hset h rfl

/-- Workers leave the clients where they are. -/
theorem workerStep_clients {s t : State m n α} {w : Fin n} (h : workerStep s w = some t) :
    t.clients = s.clients := by
  have hset : ∀ {u : State m n α} {pc : WorkerPc n α}, some (u.setWorker w pc) = some t →
      u.clients = s.clients → t.clients = s.clients := by
    intro u pc h hu
    obtain rfl := Option.some.inj h
    exact hu
  unfold workerStep at h
  split at h
  case h_3 =>
    split at h
    next => exact hset h rfl
    next => exact absurd h (by simp)
  case h_4 =>
    split at h
    next => exact hset h rfl
    next => exact hset h rfl
  case h_8 =>
    split at h
    next => exact hset h rfl
    next => exact hset h rfl
  case h_6 => exact absurd h (by simp)
  case h_10 => exact absurd h (by simp)
  all_goals exact hset h rfl

/-- A step of anyone else leaves the client where it is. -/
theorem client_stays {s t : State m n α} {a : Action m n α} {c : Fin m} (ha : a.client? ≠ some c)
    (h : Pool.step s a = some t) : t.clients c = s.clients c := by
  have hne : ∀ d, a.client? = some d → c ≠ d := fun d hd hcd => ha (hcd ▸ hd)
  cases a with
  | call d op =>
    simp only [Pool.step] at h
    split at h
    next =>
      obtain rfl := Option.some.inj h
      exact Function.update_of_ne (hne d rfl) ..
    next => exact absurd h (by simp)
  | client d =>
    obtain ⟨pc, hclients⟩ := clientStep_clients h
    rw [hclients, Function.update_of_ne (hne d rfl)]
  | wake d w =>
    simp only [Pool.step] at h
    split at h
    next =>
      obtain rfl := Option.some.inj h
      rw [State.setClient_of_ne (hne d rfl)]
      simp [State.setWorker]
    next => exact absurd h (by simp)
  | timeOut d =>
    simp only [Pool.step] at h
    split at h
    next =>
      obtain rfl := Option.some.inj h
      exact Function.update_of_ne (hne d rfl) ..
    next => exact absurd h (by simp)
  | worker w => rw [workerStep_clients h]
  | spurious w =>
    simp only [Pool.step] at h
    split at h
    next => obtain rfl := Option.some.inj h; rfl
    next => exact absurd h (by simp)

/-! ## The calls that are followed -/

/-- How far a `submit` of `x` at priority `p` is, and what it has done. -/
def Calling.Fits (k : Calling n α) (x : α) (p : TaskPriority) (pc : ClientPc n α) : Prop :=
  pc.submits = some (x, p) ∧ k.added = 0 ∧ k.foundStopped = false ∨
  pc = .notify x true ∧ (∃ r : QueueRef n, r.2 = p ∧ k.added = {(r, x)}) ∧ k.foundStopped = false ∨
  pc = .notify x false ∧ k.added = 0 ∧ k.foundStopped = true

/-- What is known of a `submit` that has ended. -/
def SubmitEnd.Known (e : SubmitEnd n α) : Prop :=
  e.PlacedOrThrew ∧ e.foundStopped = false ∨
  e.threw = false ∧ e.added = 0 ∧ e.foundStopped = true

/-- A call that returned and added nothing. -/
theorem SubmitEnd.not_placedOrThrew {e : SubmitEnd n α} (hthrew : e.threw = false)
    (hadded : e.added = 0) : ¬ e.PlacedOrThrew := by
  rintro (⟨_, r, _, hone⟩ | ⟨hthrow, _⟩)
  · rw [hadded] at hone
    exact absurd hone (by simp)
  · exact absurd (hthrew.symm.trans hthrow) (by simp)

structure Followed (o : Watched m n α) : Prop where
  fits : ∀ c x p, (o.calls c).op = some (.submit x p) → (o.calls c).Fits x p (o.pool.clients c)
  ended : ∀ e ∈ o.ended, e.Known

namespace Followed

variable {o : Watched m n α} {t : State m n α} {c : Fin m}

/-- A step that no client takes. -/
theorem pool (h : Followed o) (hclients : t.clients = o.pool.clients) :
    Followed { o with pool := t } where
  fits c x p hop := by
    show (o.calls c).Fits x p (t.clients c)
    rw [hclients]
    exact h.fits c x p hop
  ended := h.ended

/-- Client `c` moves within its call `k`, or out of it. -/
theorem observe (h : Followed o) {k : Calling n α}
    (hother : ∀ d, d ≠ c → t.clients d = o.pool.clients d)
    (hstays : ∀ x p, k.op = some (.submit x p) → (t.clients c).isIdle = false →
      ((o.observe c k t).calls c).Fits x p (t.clients c))
    (hends : ∀ x p, k.op = some (.submit x p) → (t.clients c).isIdle = true →
      SubmitEnd.Known { task := x, priority := p, threw := (o.pool.clients c).isTestRunning
                        added := k.added + addedBy o.pool t
                        foundStopped := k.foundStopped ||
                          (o.pool.clients c).isRecheck && !o.pool.running }) :
    Followed (o.observe c k t) where
  fits d x p hop := by
    by_cases hd : d = c
    · subst hd
      cases hidle : (t.clients d).isIdle with
      | true =>
        -- The call has ended, and the client is in none.
        have hnone : ((o.observe d k t).calls d).op = none := by
          simp [Watched.observe, hidle]
        exact absurd (hnone.symm.trans hop) (by simp)
      | false =>
        have hop' : k.op = some (.submit x p) := by
          simpa [Watched.observe, hidle] using hop
        exact hstays x p hop' hidle
    · have hcalls : (o.observe c k t).calls d = o.calls d := Function.update_of_ne hd ..
      rw [hcalls] at hop ⊢
      show (o.calls d).Fits x p (t.clients d)
      rw [hother d hd]
      exact h.fits d x p hop
  ended e he := by
    unfold Watched.observe at he
    dsimp only at he
    split at he
    next x p hop hidle =>
      rcases List.mem_append.mp he with he | he
      · exact h.ended e he
      · obtain rfl := List.mem_singleton.mp he
        exact hends x p hop hidle
    next => exact h.ended e he

/-- The next step of a `submit` that has not placed its task. -/
theorem submitStep (h : Followed o) {x : α} {p : TaskPriority}
    (hop : (o.calls c).op = some (.submit x p)) (hsub : (o.pool.clients c).submits = some (x, p))
    (hmove : SubmitMove o.pool t c x p) (hother : ∀ d, d ≠ c → t.clients d = o.pool.clients d) :
    Followed (o.observe c (o.calls c) t) := by
  obtain ⟨hadded, hfound⟩ : (o.calls c).added = 0 ∧ (o.calls c).foundStopped = false := by
    rcases h.fits c x p hop with ⟨_, hk⟩ | ⟨hpc, _⟩ | ⟨hpc, _⟩
    · exact hk
    · rw [hpc] at hsub
      exact nomatch hsub
    · rw [hpc] at hsub
      exact nomatch hsub
  have hcall : ∀ y q, (o.calls c).op = some (.submit y q) → x = y ∧ p = q := by
    intro y q hop'
    exact Call.submit.inj (Option.some.inj (hop.symm.trans hop'))
  have hcalls : (t.clients c).isIdle = false → (o.observe c (o.calls c) t).calls c =
      { op := (o.calls c).op, added := addedBy o.pool t
        foundStopped := (o.pool.clients c).isRecheck && !o.pool.running } := by
    intro hidle
    simp [Watched.observe, hidle, hadded, hfound]
  cases hmove with
  | throws old idle queues =>
    refine h.observe hother ?_ ?_
    · intro y q _ hidle
      rw [idle] at hidle
      exact nomatch hidle
    · intro y q _ _
      refine .inl ⟨.inr ⟨by rw [old]; rfl, ?_⟩, ?_⟩
      · rw [hadded, addedBy_of_eq queues, add_zero]
      · rw [hfound, old]
        rfl
  | goesOn running next queues =>
    have hidle : (t.clients c).isIdle = false := by
      cases hpc : t.clients c with
      | idle => rw [hpc] at next; exact nomatch next
      | _ => rfl
    refine h.observe hother ?_ ?_
    · intro y q hop' _
      obtain ⟨rfl, rfl⟩ := hcall y q hop'
      rw [hcalls hidle]
      refine .inl ⟨next, addedBy_of_eq queues, ?_⟩
      cases hrecheck : (o.pool.clients c).isRecheck with
      | true => simp [running hrecheck]
      | false => rfl
    · intro y q _ hidle'
      exact absurd (hidle.symm.trans hidle') (by simp)
  | @places r tries level next queues =>
    have hidle : (t.clients c).isIdle = false := by rw [next]; rfl
    refine h.observe hother ?_ ?_
    · intro y q hop' _
      obtain ⟨rfl, rfl⟩ := hcall y q hop'
      rw [hcalls hidle]
      exact .inr (.inl ⟨next, ⟨r, level, addedBy_of_update queues⟩, by simp [tries]⟩)
    · intro y q _ hidle'
      exact absurd (hidle.symm.trans hidle') (by simp)
  | givesUp old stopped next queues =>
    have hidle : (t.clients c).isIdle = false := by rw [next]; rfl
    refine h.observe hother ?_ ?_
    · intro y q hop' _
      obtain ⟨rfl, rfl⟩ := hcall y q hop'
      rw [hcalls hidle]
      exact .inr (.inr ⟨next, addedBy_of_eq queues, by simp [old, stopped, ClientPc.isRecheck]⟩)
    · intro y q _ hidle'
      exact absurd (hidle.symm.trans hidle') (by simp)

/-- The notification with which a `submit` returns, or a step of some other call. -/
theorem otherStep (h : Followed o) (hother : ∀ d, d ≠ c → t.clients d = o.pool.clients d)
    (hnotify : ∀ x placed, o.pool.clients c = .notify x placed →
      t.clients c = .idle ∧ t.queues = o.pool.queues)
    (hnone : ∀ x p, (o.calls c).op = some (.submit x p) → (o.pool.clients c).submits = none) :
    Followed (o.observe c (o.calls c) t) := by
  -- A `submit` is at its notification.
  have hat : ∀ x p, (o.calls c).op = some (.submit x p) →
      ∃ placed, o.pool.clients c = .notify x placed ∧
        (placed = true ∧ (∃ r : QueueRef n, r.2 = p ∧ (o.calls c).added = {(r, x)}) ∧
          (o.calls c).foundStopped = false ∨
        placed = false ∧ (o.calls c).added = 0 ∧ (o.calls c).foundStopped = true) := by
    intro x p hop
    rcases h.fits c x p hop with ⟨hsub, _⟩ | ⟨hpc, hk⟩ | ⟨hpc, hk⟩
    · exact absurd (hsub.symm.trans (hnone x p hop)) (by simp)
    · exact ⟨true, hpc, .inl ⟨rfl, hk⟩⟩
    · exact ⟨false, hpc, .inr ⟨rfl, hk⟩⟩
  refine h.observe hother ?_ ?_
  · intro x p hop hidle
    obtain ⟨placed, hpc, _⟩ := hat x p hop
    rw [(hnotify x placed hpc).1] at hidle
    exact nomatch hidle
  · intro x p hop _
    obtain ⟨placed, hpc, hk⟩ := hat x p hop
    have hadded : (o.calls c).added + addedBy o.pool t = (o.calls c).added := by
      rw [addedBy_of_eq (hnotify x placed hpc).2, add_zero]
    have hthrew : (o.pool.clients c).isTestRunning = false := by rw [hpc]; rfl
    have hrecheck : (o.pool.clients c).isRecheck = false := by rw [hpc]; rfl
    unfold SubmitEnd.Known SubmitEnd.PlacedOrThrew
    simp only [hadded, hthrew, hrecheck, Bool.false_and, Bool.or_false]
    rcases hk with ⟨_, hplaced, hfound⟩ | ⟨_, hzero, hfound⟩
    · exact .inl ⟨.inl ⟨trivial, hplaced⟩, hfound⟩
    · exact .inr ⟨trivial, hzero, hfound⟩

/-- A step of a client that is in no new call. -/
theorem clientStep (h : Followed o) (hother : ∀ d, d ≠ c → t.clients d = o.pool.clients d)
    (hmove : ∀ x p, (o.pool.clients c).submits = some (x, p) → SubmitMove o.pool t c x p)
    (hnotify : ∀ x placed, o.pool.clients c = .notify x placed →
      t.clients c = .idle ∧ t.queues = o.pool.queues) :
    Followed (o.observe c (o.calls c) t) := by
  by_cases hplacing : ∃ x p, (o.calls c).op = some (.submit x p) ∧
      (o.pool.clients c).submits = some (x, p)
  · obtain ⟨x, p, hop, hsub⟩ := hplacing
    exact h.submitStep hop hsub (hmove x p hsub) hother
  · refine h.otherStep hother hnotify ?_
    intro x p hop
    rcases h.fits c x p hop with ⟨hsub, _⟩ | ⟨hpc, _⟩ | ⟨hpc, _⟩
    · exact absurd ⟨x, p, hop, hsub⟩ hplacing
    · rw [hpc]; rfl
    · rw [hpc]; rfl

/-- A call begins. -/
theorem call (h : Followed o) {op : Call α} (hother : ∀ d, d ≠ c → t.clients d = o.pool.clients d)
    (hidle : o.pool.clients c = .idle) (hentry : t.clients c = op.entry)
    (hqueues : t.queues = o.pool.queues) : Followed (o.observe c { op := some op } t) := by
  refine h.observe hother ?_ ?_
  · intro x p hop _
    obtain rfl : op = .submit x p := Option.some.inj hop
    have hstays : (t.clients c).isIdle = false := by rw [hentry]; rfl
    refine .inl ⟨by rw [hentry]; rfl, ?_⟩
    simp [Watched.observe, hstays, hidle, ClientPc.isRecheck, addedBy_of_eq hqueues]
  · intro x p hop hends
    obtain rfl : op = .submit x p := Option.some.inj hop
    rw [hentry] at hends
    exact nomatch hends

end Followed

theorem followed_step : Preserved (Watched.step (m := m) (n := n) (α := α)) free Followed := by
  intro o a o' h _ hstep
  obtain ⟨t, ht, rfl⟩ := Option.map_eq_some_iff.mp hstep
  have hother : ∀ c, a.client? = some c → ∀ d, d ≠ c → t.clients d = o.pool.clients d := by
    intro c hc d hd
    refine client_stays ?_ ht
    rw [hc]
    exact fun he => hd (Option.some.inj he).symm
  cases a with
  | call c op =>
    simp only [Pool.step] at ht
    split at ht
    next hidle =>
      obtain rfl := Option.some.inj ht
      exact h.call (hother c rfl) hidle (State.setClient_self ..) rfl
    next => exact absurd ht (by simp)
  | client c =>
    exact h.clientStep (hother c rfl) (fun _ _ hsub => .of_clientStep hsub ht)
      fun _ _ hpc => notify_ends hpc ht
  | wake c w =>
    obtain ⟨⟨x, placed, hpc⟩, hends⟩ := wake_ends ht
    refine h.clientStep (hother c rfl) ?_ fun _ _ _ => hends
    intro y q hsub
    rw [hpc] at hsub
    exact absurd hsub (by simp [ClientPc.submits])
  | timeOut c =>
    simp only [Pool.step] at ht
    split at ht
    next x p hpc =>
      obtain rfl := Option.some.inj ht
      refine h.clientStep (hother c rfl) ?_ ?_
      · intro y q hsub
        rw [hpc] at hsub
        refine .goesOn (fun hr => ?_) (by rw [State.setClient_self]; exact hsub) rfl
        rw [hpc] at hr
        exact absurd hr (by simp [ClientPc.isRecheck])
      · intro y placed hnotify
        exact absurd (hpc.symm.trans hnotify) (by simp)
    next => exact absurd ht (by simp)
  | worker w => exact h.pool (workerStep_clients ht)
  | spurious w =>
    simp only [Pool.step] at ht
    split at ht
    next => obtain rfl := Option.some.inj ht; exact h.pool rfl
    next => exact absurd ht (by simp)

theorem followed_start (s : State m n α) : Followed (.start s) where
  fits _ _ _ hop := nomatch hop
  ended _ he := absurd he List.not_mem_nil

/-- **When `submit` places its task or throws**, from any state of the pool and in every
interleaving: if and only if it does not find the pool stopped after a wait for room has timed out.
-/
theorem submit_placed_or_threw_iff {s : State m n α} {as : List (Action m n α)}
    {o : Watched m n α} (run : Run Watched.step free (.start s) as o) :
    ∀ e ∈ o.ended, e.PlacedOrThrew ↔ e.foundStopped = false := by
  intro e he
  rcases (run.invariant followed_step (followed_start s)).ended e he with
    ⟨hplaced, hfound⟩ | ⟨hthrew, hadded, hfound⟩
  · exact iff_of_true hplaced hfound
  · exact iff_of_false (SubmitEnd.not_placedOrThrew hthrew hadded) (by simp [hfound])

/-- One worker, and a critical task. -/
theorem submit_placed_or_threw_one :
    ∃ o, Run Watched.step free (.start (Pool.start 1 1 Nat))
        (.call 0 (.submit 7 .critical) :: List.replicate 4 (.client 0)) o ∧
      o.ended.length = 1 ∧ ∀ e ∈ o.ended, e.PlacedOrThrew ↔ e.foundStopped = false := by
  have hrun : Run Watched.step free (.start (Pool.start 1 1 Nat))
      (.call 0 (.submit 7 .critical) :: List.replicate 4 (.client 0)) _ :=
    Run.of_isSome (by decide +kernel)
  exact ⟨_, hrun, by decide +kernel, submit_placed_or_threw_iff hrun⟩

/-- The worker is busy, and all queues for normal tasks are full. -/
def fullPool : State 2 1 Nat :=
  { Pool.start 2 1 Nat with
    workers := fun _ => .execute 0
    queues := fun r => if r.2 = .normal then List.replicate (room r) 0 else [] }

/-- The pool is shut down while client 0 waits for room: `submit` returns, and the task is in no
queue. -/
theorem submit_drops_task :
    ∃ o, Run Watched.step free (.start fullPool)
        (.call 0 (.submit 7 .normal) :: List.replicate 5 (.client 0) ++
          [.timeOut 0, .call 1 .shutdown, .client 1, .client 0, .client 0]) o ∧
      ∃ e ∈ o.ended, e.threw = false ∧ e.added = 0 ∧ ¬ e.PlacedOrThrew := by
  have hrun : Run Watched.step free (.start fullPool)
      (.call 0 (.submit 7 .normal) :: List.replicate 5 (.client 0) ++
        [.timeOut 0, .call 1 .shutdown, .client 1, .client 0, .client 0]) _ :=
    Run.of_isSome (by decide +kernel)
  have hdrops : ∀ {ended : List (SubmitEnd 1 Nat)},
      (∃ e ∈ ended, e.threw = false ∧ e.added = 0) →
      ∃ e ∈ ended, e.threw = false ∧ e.added = 0 ∧ ¬ e.PlacedOrThrew := by
    rintro ended ⟨e, he, hthrew, hadded⟩
    exact ⟨e, he, hthrew, hadded, SubmitEnd.not_placedOrThrew hthrew hadded⟩
  exact ⟨_, hrun, hdrops (by decide +kernel)⟩

end Pool
end NexusTask
