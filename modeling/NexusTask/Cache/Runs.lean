import NexusTask.Cache
import NexusTask.Lib.LastWrite

/-!
# What a cache answers

An entry leaves the table when `get` finds it expired, when `cleanup_expired` does, or by `remove`
and `clear`. The answers do not depend on the first two: `table` is read off the history alone, from
the last operation that writes the key, and every reader sees in the cache what it sees in there
(`view_after`).
-/

set_option autoImplicit false

namespace NexusTask
namespace TaskResultCache

open Expiry Log

inductive Op (K ρ : Type)
  | put (key : K) (result : ρ) (ttl : Option Int)
  | get (key : K)
  | contains (key : K)
  | remove (key : K)
  | cleanupExpired
  | clear

namespace Op

variable {K ρ : Type}

/-- It writes the key, or every key. -/
def Affects (key : K) : Op K ρ → Prop
  | put key' _ _ => key' = key
  | remove key' => key' = key
  | clear => True
  | _ => False

instance [DecidableEq K] (key : K) : (op : Op K ρ) → Decidable (op.Affects key)
  | put key' _ _ => inferInstanceAs (Decidable (key' = key))
  | remove key' => inferInstanceAs (Decidable (key' = key))
  | clear => inferInstanceAs (Decidable True)
  | get _ | contains _ | cleanupExpired => inferInstanceAs (Decidable False)

/-- It is one of those that write. -/
def writes : Op K ρ → Bool
  | put _ _ _ | remove _ | clear => true
  | get _ | contains _ | cleanupExpired => false

/-- What it leaves under the key, if it writes it. -/
def written [DecidableEq K] (defaultTtl now : Int) (key : K) : Op K ρ → Option (Option (ρ × Int))
  | put key' result ttl =>
      if key' = key then
        some ((expiry defaultTtl now ttl).toOption.map fun expiryTime => (result, expiryTime))
      else none
  | remove key' => if key' = key then some none else none
  | clear => some none
  | get _ | contains _ | cleanupExpired => none

variable [DecidableEq K] {defaultTtl now : Int} {key : K} {op : Op K ρ}

theorem written_eq_none : op.written defaultTtl now key = none ↔ ¬ op.Affects key := by
  cases op <;> simp [written, Affects]

theorem written_eq_none_of_reads (h : op.writes = false) :
    op.written defaultTtl now key = none := by
  cases op <;> first | rfl | exact absurd h (by simp [writes])

theorem written_eq_entry {r : ρ} {e : Int} :
    op.written defaultTtl now key = some (some (r, e)) ↔
      ∃ ttl, op = put key r ttl ∧ expiry defaultTtl now ttl = .ok e := by
  cases op with
  | put key' result ttl =>
    by_cases hkey : key' = key
    · subst hkey
      cases hexpiry : expiry defaultTtl now ttl with
      | error _ => simp [written, hexpiry, Except.toOption]
      | ok e' => simp [written, hexpiry, Except.toOption]
    · simp [written, hkey]
  | remove key' => simp [written]
  | _ => simp [written]

end Op

variable {K ρ : Type} [DecidableEq K]

/-- One operation at a reading of the clock. -/
def perform (c : TaskResultCache K ρ) (event : Int × Op K ρ) : Except Fault (TaskResultCache K ρ) :=
  match event.2 with
  | .put key result ttl => c.put event.1 key result ttl
  | .get key => .ok (c.get event.1 key).2
  | .contains key => .ok (c.contains event.1 key).2
  | .remove key => .ok (c.remove key)
  | .cleanupExpired => .ok (c.cleanupExpired event.1)
  | .clear => .ok c.clear

/-- The cache after a history. -/
def after (c : TaskResultCache K ρ) (history : List (Int × Op K ρ)) :
    Except Fault (TaskResultCache K ρ) := history.foldlM perform c

/-- The readings of a history do not go back, and the next one is `t`. -/
def InOrder (history : List (Int × Op K ρ)) (t : Int) : Prop :=
  (history.map Prod.fst ++ [t]).Pairwise (· ≤ ·)

instance (history : List (Int × Op K ρ)) (t : Int) : Decidable (InOrder history t) :=
  inferInstanceAs (Decidable (List.Pairwise _ _))

omit [DecidableEq K] in
theorem inOrder_concat {history : List (Int × Op K ρ)} {event : Int × Op K ρ} {t : Int}
    (h : InOrder (history ++ [event]) t) : InOrder history event.1 ∧ event.1 ≤ t := by
  unfold InOrder at h
  rw [List.map_append, List.map_singleton, List.pairwise_append] at h
  exact ⟨h.1, h.2.2 event.1 (by simp) t (by simp)⟩

/-- What the history says is under the key. -/
def table (c : TaskResultCache K ρ) (history : List (Int × Op K ρ)) (key : K) : Option (ρ × Int) :=
  (lastWrite (fun event => event.2.written c.defaultTtl event.1 key) history).getD (c.view key)

/-! ## One operation -/

variable {c c' : TaskResultCache K ρ} {event : Int × Op K ρ} {history : List (Int × Op K ρ)}

theorem put_eq_ok {now : Int} {key : K} {result : ρ} {ttl : Option Int} :
    c.put now key result ttl = .ok c' ↔
      ∃ e, expiry c.defaultTtl now ttl = .ok e ∧ c.store key ⟨result, e⟩ = c' := by
  unfold put
  cases expiry c.defaultTtl now ttl with
  | error _ => simp [Except.map]
  | ok e => simp [Except.map]

theorem get_defaultTtl (now : Int) (key : K) : (c.get now key).2.defaultTtl = c.defaultTtl := by
  unfold get
  cases c.cache.lookup key with
  | none => rfl
  | some entry =>
    dsimp only
    split <;> rfl

theorem perform_defaultTtl (h : c.perform event = .ok c') : c'.defaultTtl = c.defaultTtl := by
  obtain ⟨now, op⟩ := event
  cases op with
  | put key result ttl =>
    obtain ⟨e, _, rfl⟩ := put_eq_ok.mp h
    rfl
  | get key | contains key =>
    obtain rfl := Except.ok.inj h
    exact get_defaultTtl now key
  | remove key | cleanupExpired | clear =>
    obtain rfl := Except.ok.inj h
    rfl

theorem update_eq_written (f : K → Option (ρ × Int)) (key : K) (o : Option (ρ × Int)) :
    Function.update f key o = fun key' => (if key = key' then some o else none).getD (f key') := by
  funext key'
  by_cases hkey : key = key'
  · subst hkey
    simp
  · simp [hkey, Function.update_of_ne (Ne.symm hkey)]

/-- It writes what `written` says, and drops nothing that is alive. -/
theorem view_perform (h : c.perform event = .ok c') :
    SameFrom event.1 c'.view
      (fun key => (event.2.written c.defaultTtl event.1 key).getD (c.view key)) := by
  obtain ⟨now, op⟩ := event
  cases op with
  | put key result ttl =>
    obtain ⟨e, hexpiry, rfl⟩ := put_eq_ok.mp h
    rw [view_store, update_eq_written]
    apply SameFrom.of_eq
    funext key'
    simp [Op.written, hexpiry, Except.toOption]
  | get key | contains key =>
    obtain rfl := Except.ok.inj h
    exact .of_dropped (get_drops now key)
  | remove key =>
    obtain rfl := Except.ok.inj h
    rw [view_erase, update_eq_written]
    exact .refl _ _
  | cleanupExpired =>
    obtain rfl := Except.ok.inj h
    exact .of_dropped (cleanupExpired_drops now)
  | clear =>
    obtain rfl := Except.ok.inj h
    exact .refl _ _

/-! ## A history -/

theorem after_concat : c.after (history ++ [event]) = .ok c' ↔
    ∃ c₁, c.after history = .ok c₁ ∧ c₁.perform event = .ok c' := by
  unfold after
  rw [List.foldlM_append]
  cases history.foldlM perform c with
  | error _ => simp [bind, Except.bind]
  | ok c₁ => cases hlast : c₁.perform event <;> simp [hlast, bind, Except.bind, pure, Except.pure]

theorem after_defaultTtl (h : c.after history = .ok c') : c'.defaultTtl = c.defaultTtl := by
  induction history using List.reverseRecOn generalizing c' with
  | nil =>
    obtain rfl := Except.ok.inj h
    rfl
  | append_singleton history event ih =>
    obtain ⟨c₁, hbefore, hlast⟩ := after_concat.mp h
    rw [perform_defaultTtl hlast, ih hbefore]

theorem table_concat (key : K) : c.table (history ++ [event]) key
    = (event.2.written c.defaultTtl event.1 key).getD (c.table history key) := by
  unfold table
  rw [lastWrite_concat]
  cases event.2.written c.defaultTtl event.1 key <;> rfl

/-- **The cache is the table**, for whoever reads it now or later. -/
theorem view_after (h : c.after history = .ok c') {t : Int} (hclock : InOrder history t) :
    SameFrom t c'.view (c.table history) := by
  induction history using List.reverseRecOn generalizing c' t with
  | nil =>
    obtain rfl := Except.ok.inj h
    exact .refl _ _
  | append_singleton history event ih =>
    obtain ⟨c₁, hbefore, hlast⟩ := after_concat.mp h
    obtain ⟨hclock, hle⟩ := inOrder_concat hclock
    have hstep := view_perform hlast
    rw [after_defaultTtl hbefore] at hstep
    have hnow : SameFrom event.1 c'.view (c.table (history ++ [event])) := by
      rw [funext table_concat]
      exact hstep.trans ((ih hbefore hclock).write _)
    exact hnow.later hle

/-- What `get` returns after a history. -/
theorem get_after (h : c.after history = .ok c') {t : Int} (hclock : InOrder history t) (key : K) :
    (c'.get t key).1 = alive t (c.table history key) := by
  rw [get_result]
  exact view_after h hclock key t (le_refl t)

/-- A `put` after which nothing writes the key. -/
theorem table_of_put {now : Int} {key : K} {r : ρ} {ttl : Option Int} {e : Int}
    (before : List (Int × Op K ρ)) {rest : List (Int × Op K ρ)}
    (hrest : ∀ event ∈ rest, ¬ event.2.Affects key)
    (hexpiry : expiry c.defaultTtl now ttl = .ok e) :
    c.table (before ++ (now, .put key r ttl) :: rest) key = some (r, e) := by
  have hlast : lastWrite (fun event => event.2.written c.defaultTtl event.1 key)
      (before ++ (now, .put key r ttl) :: rest) = some (some (r, e)) := by
    apply lastWrite_eq_some.mpr
    refine ⟨before, (now, .put key r ttl), rest, rfl, ?_, ?_⟩
    · exact Op.written_eq_entry.mpr ⟨ttl, rfl, hexpiry⟩
    · intro event hmem
      exact Op.written_eq_none.mpr (hrest event hmem)
  unfold table
  rw [hlast]
  rfl

/-- The table of a new cache, by the last operation that wrote the key. -/
theorem table_eq_some {d : Int} {key : K} {r : ρ} {e : Int} :
    (new d : TaskResultCache K ρ).table history key = some (r, e) ↔
      ∃ before now ttl rest, history = before ++ (now, .put key r ttl) :: rest ∧
        (∀ event ∈ rest, ¬ event.2.Affects key) ∧ expiry d now ttl = .ok e := by
  constructor
  · intro h
    have hgetD : ∀ o : Option (Option (ρ × Int)),
        o.getD none = some (r, e) → o = some (some (r, e)) := by
      intro o
      cases o <;> simp
    obtain ⟨before, ⟨now, op⟩, rest, rfl, hwritten, hrest⟩ := lastWrite_eq_some.mp (hgetD _ h)
    obtain ⟨ttl, rfl, hexpiry⟩ := Op.written_eq_entry.mp hwritten
    refine ⟨before, now, ttl, rest, rfl, ?_, hexpiry⟩
    intro event hmem
    exact Op.written_eq_none.mp (hrest event hmem)
  · rintro ⟨before, now, ttl, rest, rfl, hrest, hexpiry⟩
    exact table_of_put before hrest hexpiry

/-- What does not write leaves no trace in it. -/
theorem table_filter (key : K) :
    c.table (history.filter fun event => event.2.writes) key = c.table history key := by
  unfold table
  rw [lastWrite_filter]
  intro event hwrites
  exact Op.written_eq_none_of_reads hwrites

/-- Only a `put` can fault, and whether it does is not a matter of what the cache holds. -/
theorem perform_isOk : (∃ c', c.perform event = .ok c') ↔
    ∀ key r ttl, event.2 = .put key r ttl → ∃ e, expiry c.defaultTtl event.1 ttl = .ok e := by
  obtain ⟨now, op⟩ := event
  cases op with
  | put key result ttl =>
    constructor
    · rintro ⟨c', h⟩ _ _ _ hop
      obtain ⟨e, hexpiry, _⟩ := put_eq_ok.mp h
      cases hop
      exact ⟨e, hexpiry⟩
    · intro h
      obtain ⟨e, hexpiry⟩ := h key result ttl rfl
      exact ⟨_, put_eq_ok.mpr ⟨e, hexpiry, rfl⟩⟩
  | _ => exact iff_of_true ⟨_, rfl⟩ (fun _ _ _ hop => absurd hop (by simp))

theorem after_isOk : (∃ c', c.after history = .ok c') ↔
    ∀ now key r ttl, (now, .put key r ttl) ∈ history →
      ∃ e, expiry c.defaultTtl now ttl = .ok e := by
  induction history using List.reverseRecOn with
  | nil => exact iff_of_true ⟨c, rfl⟩ (fun _ _ _ _ hmem => absurd hmem (by simp))
  | append_singleton history event ih =>
    constructor
    · rintro ⟨c', h⟩ now key r ttl hmem
      obtain ⟨c₁, hbefore, hlast⟩ := after_concat.mp h
      rcases List.mem_append.mp hmem with hmem | hmem
      · exact ih.mp ⟨c₁, hbefore⟩ now key r ttl hmem
      · obtain rfl := List.mem_singleton.mp hmem
        rw [← after_defaultTtl hbefore]
        exact perform_isOk.mp ⟨c', hlast⟩ key r ttl rfl
    · intro h
      obtain ⟨c₁, hbefore⟩ := ih.mpr fun now key r ttl hmem =>
        h now key r ttl (List.mem_append_left _ hmem)
      have hlast : ∃ c', c₁.perform event = .ok c' := by
        apply perform_isOk.mpr
        intro key r ttl hop
        rw [after_defaultTtl hbefore]
        exact h event.1 key r ttl (by simp [← hop])
      obtain ⟨c', hlast⟩ := hlast
      exact ⟨c', after_concat.mpr ⟨c₁, hbefore, hlast⟩⟩

/-- Histories that write the same leave caches that answer the same. -/
theorem get_of_same_writes {history' : List (Int × Op K ρ)}
    (hsame : (history'.filter fun event => event.2.writes)
      = history.filter fun event => event.2.writes)
    (h : c.after history = .ok c') {t : Int} (hclock : InOrder history t)
    (hclock' : InOrder history' t) (key : K) :
    ∃ c'', c.after history' = .ok c'' ∧ (c''.get t key).1 = (c'.get t key).1 := by
  have hok : ∃ c'', c.after history' = .ok c'' := by
    apply after_isOk.mpr
    intro now key' r ttl hmem
    have hmem' : (now, Op.put key' r ttl) ∈ history'.filter fun event => event.2.writes :=
      List.mem_filter.mpr ⟨hmem, rfl⟩
    rw [hsame] at hmem'
    exact after_isOk.mp ⟨c', h⟩ now key' r ttl (List.mem_filter.mp hmem').1
  obtain ⟨c'', h'⟩ := hok
  refine ⟨c'', h', ?_⟩
  rw [get_after h' hclock', get_after h hclock, ← table_filter, hsame, table_filter]

/-- **A cache answers by the last write.** `get` returns what the last operation that wrote the key
has put there, up to the expiry it stored, and `contains` says whether it would. Reads and clean-ups
put in anywhere, or left out, change no answer. -/
theorem get_eq_last_put {d : Int} {c : TaskResultCache K ρ}
    (h : (new d).after history = .ok c) {t : Int} (hclock : InOrder history t) (key : K) :
    (∀ r, (c.get t key).1 = some r ↔
      ∃ before now ttl rest e, history = before ++ (now, .put key r ttl) :: rest ∧
        (∀ event ∈ rest, ¬ event.2.Affects key) ∧ expiry d now ttl = .ok e ∧ t ≤ e) ∧
    (c.contains t key).1 = (c.get t key).1.isSome ∧
    ∀ history', (history'.filter fun event => event.2.writes)
        = (history.filter fun event => event.2.writes) → InOrder history' t →
      ∃ c', (new d).after history' = .ok c' ∧ (c'.get t key).1 = (c.get t key).1 ∧
        (c'.contains t key).1 = (c.contains t key).1 := by
  refine ⟨?_, rfl, ?_⟩
  · intro r
    rw [get_after h hclock, alive_eq_some]
    constructor
    · rintro ⟨e, htable, hle⟩
      obtain ⟨before, now, ttl, rest, hsplit, hrest, hexpiry⟩ := table_eq_some.mp htable
      exact ⟨before, now, ttl, rest, e, hsplit, hrest, hexpiry, hle⟩
    · rintro ⟨before, now, ttl, rest, e, hsplit, hrest, hexpiry, hle⟩
      exact ⟨e, table_eq_some.mpr ⟨before, now, ttl, rest, hsplit, hrest, hexpiry⟩, hle⟩
  · intro history' hsame hclock'
    obtain ⟨c', h', hget⟩ := get_of_same_writes hsame h hclock hclock' key
    exact ⟨c', h', hget, congrArg Option.isSome hget⟩

/-- At the very expiry the result is still there. -/
theorem get_eq_last_put_boundary :
    ∃ c : TaskResultCache Nat Nat,
      (new 1).after [(0, .put 1 7 none), (5, .get 1), (9, .put 2 8 (some 0)), (9, .cleanupExpired)]
        = .ok c ∧ (c.get 1000000 1).1 = some 7 := by
  obtain ⟨c, hc⟩ : ∃ c : TaskResultCache Nat Nat,
      (new 1).after [(0, .put 1 7 none), (5, .get 1), (9, .put 2 8 (some 0)), (9, .cleanupExpired)]
        = .ok c := ⟨_, rfl⟩
  refine ⟨c, hc, ((get_eq_last_put hc (by decide) 1).1 7).mpr ?_⟩
  exact ⟨[], 0, none, [(5, .get 1), (9, .put 2 8 (some 0)), (9, .cleanupExpired)], 1000000, rfl,
    by decide, rfl, by decide⟩

end TaskResultCache
end NexusTask
