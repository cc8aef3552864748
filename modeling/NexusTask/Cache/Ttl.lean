import NexusTask.Cache.Runs

/-!
# How long a result is kept

`put` adds the `ttl` to a reading once, and `get` and `cleanup_expired` only compare. So a result is
kept for as long as was asked for whenever the sum can be had (`put_keeps_iff`). It is an `int64_t`
of nanoseconds, and a `ttl` an `int64_t` of milliseconds: most values of the type are too long. The
longest one, on a machine whose sums wrap, has passed before it begins (`wrappedExpiry_longest`).
-/

set_option autoImplicit false

namespace NexusTask
namespace TaskResultCache

open Expiry

variable {K ρ : Type} [DecidableEq K] {c : TaskResultCache K ρ}

theorem expiry_eq_ok {defaultTtl now : Int} {ttl : Option Int} {e : Int} :
    expiry defaultTtl now ttl = .ok e ↔
      InInt64 (ttl.getD defaultTtl * 1000000) ∧ InInt64 (now + ttl.getD defaultTtl * 1000000) ∧
        e = now + ttl.getD defaultTtl * 1000000 := by
  unfold expiry
  dsimp only
  split
  next hproduct => simp [hproduct]
  next hproduct =>
    split
    next hsum => simp [hsum]
    next hsum =>
      have hproduct := not_not.mp hproduct
      have hsum := not_not.mp hsum
      simp [hproduct, hsum, eq_comm]

/-- `put` returns, and until the `ttl` is over every `get` returns the result, as long as nothing
else is written under the key. -/
def Keeps (c : TaskResultCache K ρ) (now : Int) (key : K) (r : ρ) (ttl : Option Int) : Prop :=
  ∃ c₁, c.put now key r ttl = .ok c₁ ∧
    ∀ rest c₂ t, c₁.after rest = .ok c₂ → InOrder ((now, .put key r ttl) :: rest) t →
      (∀ event ∈ rest, ¬ event.2.Affects key) → t ≤ now + ttl.getD c.defaultTtl * 1000000 →
      (c₂.get t key).1 = some r

/-- **A result is kept exactly if its expiry is a time.** -/
theorem put_keeps_iff {now : Int} (hnow : InInt64 now) (key : K) (r : ρ) {ttl : Option Int}
    (httl : 0 ≤ ttl.getD c.defaultTtl) :
    c.Keeps now key r ttl ↔
      ttl.getD c.defaultTtl * 1000000 < 2 ^ 63 ∧
        now + ttl.getD c.defaultTtl * 1000000 < 2 ^ 63 := by
  constructor
  · rintro ⟨c₁, hput, _⟩
    obtain ⟨e, hexpiry, _⟩ := put_eq_ok.mp hput
    obtain ⟨hproduct, hsum, _⟩ := expiry_eq_ok.mp hexpiry
    exact ⟨hproduct.2, hsum.2⟩
  · rintro ⟨hproduct, hsum⟩
    have hexpiry : expiry c.defaultTtl now ttl = .ok (now + ttl.getD c.defaultTtl * 1000000) := by
      unfold InInt64 at hnow
      apply expiry_eq_ok.mpr
      refine ⟨⟨?_, hproduct⟩, ⟨?_, hsum⟩, rfl⟩
      · omega
      · omega
    have hput : c.put now key r ttl = .ok (c.store key ⟨r, _⟩) := put_eq_ok.mpr ⟨_, hexpiry, rfl⟩
    refine ⟨_, hput, ?_⟩
    intro rest c₂ t hafter hclock hrest ht
    have hwhole : c.after ((now, .put key r ttl) :: rest) = .ok c₂ := by
      unfold after
      rw [List.foldlM_cons]
      show (c.put now key r ttl >>= fun c₁ => c₁.after rest) = _
      rw [hput]
      exact hafter
    rw [get_after hwhole hclock, alive_eq_some]
    exact ⟨_, table_of_put [] hrest hexpiry, ht⟩

theorem put_keeps_default : (new : TaskResultCache Nat Nat).Keeps 0 1 7 none :=
  (put_keeps_iff (by decide) 1 7 (by decide)).mpr (by decide)

/-! ## A sum that is not a time -/

/-- What is stored where the product and the sum wrap. -/
def wrappedExpiry (defaultTtl now : Int) (ttl : Option Int) : Int :=
  afterMillis now (ttl.getD defaultTtl)

theorem wrappedExpiry_eq {defaultTtl now : Int} {ttl : Option Int} {e : Int}
    (h : expiry defaultTtl now ttl = .ok e) : wrappedExpiry defaultTtl now ttl = e := by
  obtain ⟨hproduct, hsum, rfl⟩ := expiry_eq_ok.mp h
  exact afterMillis_eq ⟨hproduct, hsum⟩

/-- The longest `ttl` wraps to a millisecond before now. -/
theorem wrappedExpiry_longest (defaultTtl : Int) {now : Int} (hnow : InInt64 (now - 1000000)) :
    wrappedExpiry defaultTtl now (some (2 ^ 63 - 1)) = now - 1000000 := by
  have hproduct : wrapped ((2 ^ 63 - 1) * 1000000) = -1000000 := by decide
  unfold wrappedExpiry afterMillis
  rw [Option.getD_some, hproduct]
  exact wrapped_of_inInt64 hnow

theorem longest_not_kept :
    ¬ (new : TaskResultCache Nat Nat).Keeps 0 1 7 (some (2 ^ 63 - 1)) ∧
      wrappedExpiry 300000 0 (some (2 ^ 63 - 1)) < 0 := by
  refine ⟨?_, by decide⟩
  rintro ⟨c₁, hput, _⟩
  obtain ⟨e, hexpiry, _⟩ := put_eq_ok.mp hput
  obtain ⟨hproduct, _⟩ := expiry_eq_ok.mp hexpiry
  exact absurd hproduct (by decide)

end TaskResultCache
end NexusTask
