import Mathlib.Data.ENat.Lattice
import NexusTask.Executor.Stages

/-!
# How often a function is invoked

A task of `submit` is enqueued, executed and, if its function throws, enqueued again by the failure
hook, as long as `can_retry` says so. Where this happens one after the other, `Sequenced`, the
number of invocations depends on the outcomes of the function only: `Outcomes`.
-/

set_option autoImplicit false

namespace NexusTask
namespace Executor

open Transition

variable {m n : Nat}

/-- The number of invocations before the first that returns, `⊤` if none does. -/
noncomputable def firstSuccess (outcome : ℕ → Bool) : ℕ∞ :=
  ⨅ (i : ℕ) (_ : outcome i = true), (i : ℕ∞)

theorem firstSuccess_eq {outcome : ℕ → Bool} {i : ℕ} (hi : outcome i = true)
    (hbefore : ∀ j < i, outcome j = false) : firstSuccess outcome = i := by
  apply le_antisymm
  · exact iInf₂_le i hi
  · apply le_iInf₂
    intro j hj
    by_contra hlt
    have hji : j < i := by exact_mod_cast not_le.mp hlt
    exact absurd ((hbefore j hji).symm.trans hj) (by simp)

theorem lt_firstSuccess {outcome : ℕ → Bool} {k : ℕ} (h : ∀ j ≤ k, outcome j = false) :
    (k : ℕ∞) < firstSuccess outcome := by
  have hle : ((k + 1 : ℕ) : ℕ∞) ≤ firstSuccess outcome := by
    apply le_iInf₂
    intro j hj
    by_contra hlt
    have hjk : j < k + 1 := by exact_mod_cast not_le.mp hlt
    exact absurd ((h j (Nat.le_of_lt_succ hjk)).symm.trans hj) (by simp)
  exact lt_of_lt_of_le (by exact_mod_cast Nat.lt_succ_self k) hle

/-- What the steps from `s₁` to `t` have done with a task that may be retried `retries` times, if
`k` invocations throw before one returns. -/
structure Outcomes (k : ℕ∞) (retries : ℕ) (u : TaskId) (s₁ : State m n) (as : List (Action m n))
    (t : State m n) : Prop where
  invoked : (t.started.count u : ℕ∞) = min k retries + 1
  completed : k ≤ retries → (t.graph.task u).status = .completed
  failed : retries < k → (t.graph.task u).status = .failed
  called : k ≤ retries → occurrences step (AtLine .callback u) s₁ as = 1
  uncalled : retries < k → occurrences step (AtLine .callback u) s₁ as = 0
  retried : (occurrences step (AtLine .recordRetry u) s₁ as : ℕ∞) = min k retries
  notified : t.notified.count u = 1
  /-- With it the edge of every dependent there was is decremented for, once. -/
  dependents : ∀ before after x, as = before ++ after → Run step free s₁ before x →
    u ∉ x.notified → ∀ e ∈ x.edges, e.dependency = u → { e with decs := 1 } ∈ t.edges

namespace Reckoned

variable {c : Fin m} {u : TaskId} {retries : ℕ} {outcome : ℕ → Bool} {i : ℕ} {t : State m n}

/-- The numbers of the end, in terms of the first invocation that returns. -/
theorem outcomes {s₁ : State m n} {as : List (Action m n)}
    (h : Reckoned c u retries outcome .ended i
      (occurrences Executor.step (AtLine .recordRetry u) s₁ as)
      (occurrences Executor.step (AtLine .callback u) s₁ as) t)
    (hdependents : t.notified.count u = 1 → ∀ before after x, as = before ++ after →
      Run Executor.step free s₁ before x → u ∉ x.notified → ∀ e ∈ x.edges, e.dependency = u →
        { e with decs := 1 } ∈ t.edges) :
    Outcomes (firstSuccess outcome) retries u s₁ as t := by
  obtain ⟨_, hstarted, hretried, hcalled, hnotified⟩ := Numbers.mk.inj h.numbers
  rcases h.fits with ⟨hgood, hcompleted⟩ | ⟨hbad, rfl, hfailed⟩
  · have hfirst : firstSuccess outcome = i := firstSuccess_eq hgood h.before
    have hle : (i : ℕ∞) ≤ retries := by exact_mod_cast h.le
    rw [hgood] at hcalled
    rw [hfirst]
    exact ⟨by rw [hstarted, min_eq_left hle]; norm_cast, fun _ => hcompleted,
      fun hlt => absurd hle (not_le.mpr hlt), fun _ => hcalled,
      fun hlt => absurd hle (not_le.mpr hlt), by rw [hretried, min_eq_left hle], hnotified,
      hdependents hnotified⟩
  · have hlt : (i : ℕ∞) < firstSuccess outcome := by
      apply lt_firstSuccess
      intro j hj
      rcases Nat.lt_or_eq_of_le hj with hji | rfl
      · exact h.before j hji
      · exact hbad
    rw [hbad] at hcalled
    exact ⟨by rw [hstarted, min_eq_right hlt.le]; norm_cast,
      fun hle => absurd hle (not_le.mpr hlt), fun _ => hfailed,
      fun hle => absurd hle (not_le.mpr hlt), fun _ => hcalled,
      by rw [hretried, min_eq_right hlt.le], hnotified, hdependents hnotified⟩

end Reckoned

/-! ## From the submission on -/

/-- The history mentions tasks that have an id. -/
structure Remembered (s : State m n) : Prop where
  history : History s
  registered : Registered s
  started : ∀ u ∈ s.started, u < s.nextTaskId
  notified : ∀ u ∈ s.notified, u < s.nextTaskId

theorem remembered_start : Remembered (start m n) :=
  ⟨history_start, registered_start, fun _ hu => absurd hu List.not_mem_nil,
    fun _ hu => absurd hu List.not_mem_nil⟩

namespace Remembered

variable {s t : State m n} {a : Action m n} {u : TaskId}

theorem started_move (h : Remembered s) (hm : Move s a t) (hu : u ∈ t.started) :
    u < t.nextTaskId := by
  apply Nat.lt_of_lt_of_le _ hm.nextTaskId_le
  rcases hm.started with hsame | ⟨w, _, _, x, _, old, hnew⟩
  · exact h.started u (hsame ▸ hu)
  · rw [hnew] at hu
    rcases List.mem_append.mp hu with hold | hlast
    · exact h.started u hold
    · obtain rfl := List.mem_singleton.mp hlast
      exact h.registered.known.worker_lt old

theorem notified_move (h : Remembered s) (hm : Move s a t) (hu : u ∈ t.notified) :
    u < t.nextTaskId := by
  apply Nat.lt_of_lt_of_le _ hm.nextTaskId_le
  rcases hm.notified with hsame | ⟨x, hnew, hx⟩
  · exact h.notified u (hsame ▸ hu)
  · rw [hnew] at hu
    rcases List.mem_append.mp hu with hold | hlast
    · exact h.notified u hold
    · obtain rfl := List.mem_singleton.mp hlast
      rcases hx with ⟨w, old, _⟩ | ⟨c, old, _⟩
      · exact h.registered.known.worker_lt old
      · exact h.registered.known.client_lt old (by simp [ClientPc.refers])

theorem move (h : Remembered s) (hm : Move s a t) : Remembered t where
  history := h.history.move h.registered.known hm
  registered := h.registered.move hm
  started _ hu := h.started_move hm hu
  notified _ hu := h.notified_move hm hu

/-- From any state of a run on, an edge is decremented for with every notification of its
dependency. -/
theorem edge_run (h : Remembered s) {as : List (Action m n)} (run : Run step free s as t) {e : Edge}
    (he : e ∈ s.edges) : s.notified.count e.dependency ≤ t.notified.count e.dependency ∧
      { e with decs := e.decs +
        (t.notified.count e.dependency - s.notified.count e.dependency) } ∈ t.edges := by
  induction run with
  | nil =>
    refine ⟨le_refl _, ?_⟩
    rw [Nat.sub_self]
    exact he
  | @snoc as x y a run _ next ih =>
    obtain ⟨hle, hmem⟩ := ih
    have hx : Remembered x :=
      run.invariant (fun _ _ _ hs _ hstep => Remembered.move hs (.of_step hstep)) h
    have hm := Move.of_step next
    have hmore : x.notified.count e.dependency ≤ y.notified.count e.dependency := by
      rcases hm.notified with hsame | ⟨v, hnew, _⟩
      · rw [hsame]
      · rw [hnew, List.count_append]
        exact Nat.le_add_right _ _
    have hedge := hm.edge_notified (hx.history.ends _ hmem).2.1 hmem
    refine ⟨le_trans hle hmore, ?_⟩
    have hsum : e.decs + (x.notified.count e.dependency - s.notified.count e.dependency) +
        (y.notified.count e.dependency - x.notified.count e.dependency) =
          e.decs + (y.notified.count e.dependency - s.notified.count e.dependency) := by omega
    rw [← hsum]
    exact hedge

/-- The dependents of a task that has been notified for once since. -/
theorem edge_once (h : Remembered s) {as : List (Action m n)} (run : Run step free s as t)
    {e : Edge} (he : e ∈ s.edges) (hnot : e.dependency ∉ s.notified)
    (honce : t.notified.count e.dependency = 1) : { e with decs := 1 } ∈ t.edges := by
  have hedge := (h.edge_run run he).2
  have hnone := List.count_eq_zero.mpr hnot
  have hdecs : e.decs = 0 := Nat.le_zero.mp (hnone ▸ h.history.decs e he)
  rwa [hdecs, hnone, honce] at hedge

end Remembered

section Submitted

variable {s : State m n} {c : Fin m} {now : Int} {options : TaskOptions}

theorem submitted_task : ((s.newTask [] options false now).setClient c
    (.record s.nextTaskId [])).graph.task s.nextTaskId =
      { id := s.nextTaskId, options, createdTime := now, wrapsPromise := false } := by
  rw [State.setClient_graph, State.newTask_graph, DependencyGraph.modify_self]

/-- A submission has just got its id. -/
theorem Solitary.of_submitted (h : Remembered s) (hcalls : s.clients c = .newTask [] options false)
    (htimeout : options.timeout = 0) (hdeadline : options.deadline = none) :
    Solitary options.maxRetries s.nextTaskId
      ((s.newTask [] options false now).setClient c (.record s.nextTaskId [])) where
  history := h.history.move h.registered.known (.newTask now hcalls)
  registered := h.registered.move (.newTask now hcalls)
  lt := Nat.lt_succ_self _
  named := Function.update_self ..
  retries := by rw [submitted_task]
  timeout := by rw [submitted_task]; exact htimeout
  deadline := by rw [submitted_task]; exact hdeadline
  plain := by rw [submitted_task]
  uncancelled := by rw [submitted_task]
  clients d hd := by
    change s.nextTaskId ∈ (Function.update s.clients c _ d).cancelled at hd
    by_cases hdc : d = c
    · rw [hdc, Function.update_self] at hd
      exact absurd hd List.not_mem_nil
    · rw [Function.update_of_ne hdc] at hd
      exact Nat.lt_irrefl _ (h.registered.known.clients d _ (List.mem_append_right _ hd))
  scheduler hmem := Nat.lt_irrefl _ (h.registered.known.scheduler _ (List.mem_append_left _ hmem))

theorem Reckoned.of_submitted (h : Remembered s) (hcalls : s.clients c = .newTask [] options false)
    (htimeout : options.timeout = 0) (hdeadline : options.deadline = none) (now : Int)
    (outcome : ℕ → Bool) :
    Reckoned c s.nextTaskId options.maxRetries outcome (.submitting (.record s.nextTaskId [])) 0 0 0
      ((s.newTask [] options false now).setClient c (.record s.nextTaskId [])) := by
  have hknown := h.registered.known
  refine ⟨.of_submitted h hcalls htimeout hdeadline, ?_, nofun, Nat.zero_le _, ?_, ?_⟩
  · refine .submitting (Function.update_self ..) (List.mem_singleton_self _) (fun d hd hmem => ?_)
      (List.count_eq_zero.mpr fun hmem => ?_) fun w hmem => ?_
    · change s.nextTaskId ∈ (Function.update s.clients c _ d).submitting at hmem
      rw [Function.update_of_ne hd] at hmem
      exact Nat.lt_irrefl _ (hknown.clients d _ (ClientPc.refers_of_submitting hmem))
    · exact Nat.lt_irrefl _ (hknown.queued _ hmem)
    · exact Nat.lt_irrefl _ (hknown.workers w _ hmem)
  · rw [submitted_task]
    exact ⟨rfl, rfl, rfl, rfl⟩
  · have hstarted : s.started.count s.nextTaskId = 0 :=
      List.count_eq_zero.mpr fun hmem => Nat.lt_irrefl _ (h.started _ hmem)
    have hnotified : s.notified.count s.nextTaskId = 0 :=
      List.count_eq_zero.mpr fun hmem => Nat.lt_irrefl _ (h.notified _ hmem)
    simp only [State.numbers, submitted_task]
    exact Numbers.mk.injEq .. ▸ ⟨rfl, hstarted, rfl, rfl, hnotified⟩

end Submitted

/-- **How often a function is invoked.** A task of `submit` without timeout and deadline is
enqueued, executed and, as long as it throws and may be retried, enqueued again, one after the
other. When it is over, the numbers are what the first invocation that returns makes of them, and
it does come to an end from wherever a worker is free for it. -/
theorem retried_until_success {as : List (Action m n)} {s s₁ : State m n} {c : Fin m} {now : Int}
    {options : TaskOptions} (run : Run step free (start m n) as s)
    (calls : s.clients c = .newTask [] options false) (timeout : options.timeout = 0)
    (deadline : options.deadline = none) (submitted : step s (.client c now) = some s₁)
    (outcome : ℕ → Bool) (bs : List (Action m n)) (t : State m n)
    (sequenced : Run step (Sequenced s.nextTaskId outcome) s₁ bs t) :
    (t.Released s.nextTaskId →
      Outcomes (firstSuccess outcome) options.maxRetries s.nextTaskId s₁ bs t) ∧
    ((∃ w, t.workers w = .idle ∨ s.nextTaskId ∈ (t.workers w).hand) →
      ∃ cs t', Run step (Sequenced s.nextTaskId outcome) t cs t' ∧ t'.Released s.nextTaskId) := by
  have hremembered : Remembered s := run.invariant
    (fun _ _ _ h _ hstep => Remembered.move h (.of_step hstep)) remembered_start
  simp only [step, clientStep, calls] at submitted
  obtain rfl := Option.some.inj submitted
  have hfirst := Reckoned.of_submitted hremembered calls timeout deadline now outcome
  obtain ⟨stage, i, hlast⟩ := hfirst.run sequenced
  constructor
  · intro hreleased
    obtain rfl := hlast.ended_of_released hreleased
    apply hlast.outcomes
    intro honce before after x hsplit hx hnot e he hdependency
    subst hsplit
    obtain ⟨x', hbefore, hafter⟩ := sequenced.toFree.of_append
    obtain rfl := hx.functional hbefore
    have hbegun : Remembered _ := hremembered.move (.newTask now calls)
    have hthere : Remembered x :=
      hx.invariant (fun _ _ _ h _ hstep => Remembered.move h (.of_step hstep)) hbegun
    rw [← hdependency] at hnot honce
    exact hthere.edge_once hafter he hnot honce
  · exact hlast.exists_released

def submitCalled : State 1 1 :=
  (exec step free (start 1 1) [.call 0 (.submit { maxRetries := 2 })]).get (by decide +kernel)

def submitBegun : State 1 1 := (step submitCalled (.client 0 0)).get (by decide +kernel)

/-- The first invocation throws and the second returns. -/
def second (i : ℕ) : Bool := i == 1

theorem retried_until_success_second : ∃ bs t, Run step (Sequenced 1 second) submitBegun bs t ∧
    t.started.count 1 = 2 ∧ (t.graph.task 1).status = .completed ∧
    occurrences step (AtLine .recordRetry 1) submitBegun bs = 1 := by
  have hrun : Run step free (start 1 1) [.call 0 (.submit { maxRetries := 2 })] submitCalled :=
    .of_isSome _
  have hbegun : step submitCalled (.client 0 0) = some submitBegun := (Option.some_get _).symm
  have hid : submitCalled.nextTaskId = 1 := by decide +kernel
  have hcalls : submitCalled.clients 0 = .newTask [] { maxRetries := 2 } false := by decide +kernel
  have hresult := retried_until_success hrun hcalls rfl rfl hbegun second
  rw [hid] at hresult
  obtain ⟨bs, t, hsequenced, hreleased⟩ :=
    (hresult [] submitBegun .nil).2 ⟨0, .inl (by decide +kernel)⟩
  have houtcomes := (hresult bs t hsequenced).1 hreleased
  have hfirst : firstSuccess second = (1 : ℕ) :=
    firstSuccess_eq rfl fun j hj => by rw [Nat.lt_one_iff.mp hj]; rfl
  rw [hfirst] at houtcomes
  have hle : ((1 : ℕ) : ℕ∞) ≤ (2 : ℕ) := Nat.cast_le.mpr (Nat.le_succ 1)
  have hinvoked := houtcomes.invoked
  have hretried := houtcomes.retried
  rw [min_eq_left hle] at hinvoked hretried
  exact ⟨bs, t, hsequenced, by exact_mod_cast hinvoked, houtcomes.completed hle,
    by exact_mod_cast hretried⟩

end Executor
end NexusTask
