import Mathlib.Data.List.AList
import NexusTask.Lib.Expiry
import NexusTask.RateLimiter.Arithmetic

/-!
# `TaskResultCache`

Results under keys, each with the time up to which it holds. Times are `steady_clock` readings in
nanoseconds, a `ttl` is in milliseconds. The `unordered_map` is an `AList`: no key is in it twice,
and in which order its entries come does not matter. Every operation holds the mutex, so it is one
step; `now` is the reading it takes.
-/

set_option autoImplicit false

namespace NexusTask

structure CacheEntry (ρ : Type) where
  result : ρ
  expiryTime : Int

/-- `now > expiry_time`. -/
def CacheEntry.expired {ρ : Type} (now : Int) (entry : CacheEntry ρ) : Bool :=
  decide (now > entry.expiryTime)

structure TaskResultCache (K ρ : Type) [DecidableEq K] where
  cache : AList fun _ : K => CacheEntry ρ
  defaultTtl : Int

namespace TaskResultCache

variable {K ρ : Type} [DecidableEq K]

/-- The constructor. Five minutes, if nothing else is said. -/
def new (defaultTtl : Int := 300000) : TaskResultCache K ρ := { cache := ∅, defaultTtl }

variable (c : TaskResultCache K ρ)

/-- `cache_[key] = entry`. -/
def store (key : K) (entry : CacheEntry ρ) : TaskResultCache K ρ :=
  { c with cache := c.cache.insert key entry }

/-- `now + ttl.value_or(default_ttl_)`: the milliseconds become nanoseconds before they are added,
both in `int64_t`. -/
def expiry (defaultTtl now : Int) (ttl : Option Int) : Except Fault Int :=
  let nanoseconds := ttl.getD defaultTtl * 1000000
  if ¬ InInt64 nanoseconds then .error .overflow
  else if ¬ InInt64 (now + nanoseconds) then .error .overflow
  else .ok (now + nanoseconds)

def put (now : Int) (key : K) (result : ρ) (ttl : Option Int) :
    Except Fault (TaskResultCache K ρ) :=
  (expiry c.defaultTtl now ttl).map fun expiryTime => c.store key { result, expiryTime }

def get (now : Int) (key : K) : Option ρ × TaskResultCache K ρ :=
  match c.cache.lookup key with
  | none => (none, c)
  | some entry =>
      if entry.expired now then (none, { c with cache := c.cache.erase key })
      else (some entry.result, c)

def contains (now : Int) (key : K) : Bool × TaskResultCache K ρ :=
  let (result, c') := c.get now key
  (result.isSome, c')

def remove (key : K) : TaskResultCache K ρ := { c with cache := c.cache.erase key }

/-- The loop erases an entry or goes on to the next one. -/
def cleanupExpired (now : Int) : TaskResultCache K ρ :=
  { c with cache :=
      { entries := c.cache.entries.filter fun entry => !entry.2.expired now
        nodupKeys := c.cache.nodupKeys.sublist List.filter_sublist } }

def clear : TaskResultCache K ρ := { c with cache := ∅ }

/-! ## What the operations do to the table -/

open Expiry

/-- The table as keys and results with deadlines. -/
def view (key : K) : Option (ρ × Int) :=
  (c.cache.lookup key).map fun entry => (entry.result, entry.expiryTime)

variable {c}

theorem view_store (key : K) (entry : CacheEntry ρ) :
    (c.store key entry).view
      = Function.update c.view key (some (entry.result, entry.expiryTime)) := by
  funext key'
  by_cases hkey : key' = key
  · subst hkey
    simp [view, store]
  · simp [view, store, AList.lookup_insert_ne hkey, Function.update_of_ne hkey]

theorem view_erase (key : K) :
    (c.remove key).view = Function.update c.view key none := by
  funext key'
  by_cases hkey : key' = key
  · subst hkey
    simp [view, remove]
  · simp [view, remove, AList.lookup_erase_ne hkey, Function.update_of_ne hkey]

/-- An entry that has expired is not alive, and the other way round. -/
theorem alive_entry (now : Int) (entry : CacheEntry ρ) :
    alive now (some (entry.result, entry.expiryTime))
      = if entry.expired now then none else some entry.result := by
  unfold alive CacheEntry.expired
  by_cases hexpired : now > entry.expiryTime
  · simp [hexpired, Int.not_le.mpr hexpired]
  · simp [hexpired, Int.not_lt.mp hexpired]

/-- `get` returns what is alive. -/
theorem get_result (now : Int) (key : K) : (c.get now key).1 = alive now (c.view key) := by
  unfold get view
  cases c.cache.lookup key with
  | none => rfl
  | some entry =>
    rw [Option.map_some, alive_entry]
    dsimp only
    split <;> rfl

/-- It drops what has expired. -/
theorem get_drops (now : Int) (key key' : K) :
    (c.get now key).2.view key' = c.view key' ∨
      (c.get now key).2.view key' = none ∧ alive now (c.view key') = none := by
  unfold get
  cases hentry : c.cache.lookup key with
  | none => exact .inl rfl
  | some entry =>
    dsimp only
    split
    next hexpired =>
      by_cases hkey : key' = key
      · subst hkey
        refine .inr ⟨by simp [view], ?_⟩
        simp [view, hentry, alive_entry, hexpired]
      · exact .inl (by simp [view, AList.lookup_erase_ne hkey])
    next => exact .inl rfl

/-- So does `cleanup_expired`. -/
theorem cleanupExpired_drops (now : Int) (key : K) :
    (c.cleanupExpired now).view key = c.view key ∨
      (c.cleanupExpired now).view key = none ∧ alive now (c.view key) = none := by
  have hkept : ∀ entry, entry ∈ (c.cleanupExpired now).cache.lookup key ↔
      entry ∈ c.cache.lookup key ∧ entry.expired now = false := by
    intro entry
    rw [AList.mem_lookup_iff, AList.mem_lookup_iff]
    simp [cleanupExpired]
  unfold view
  cases hentry : c.cache.lookup key with
  | none =>
    left
    have hnone : (c.cleanupExpired now).cache.lookup key = none := by
      apply Option.eq_none_iff_forall_not_mem.mpr
      intro entry hmem
      exact absurd ((hkept entry).mp hmem).1 (by simp [hentry])
    rw [hnone]
  | some entry =>
    cases hexpired : entry.expired now with
    | false =>
      left
      have hmem : entry ∈ (c.cleanupExpired now).cache.lookup key :=
        (hkept entry).mpr ⟨hentry, hexpired⟩
      rw [hmem]
    | true =>
      right
      have hnone : (c.cleanupExpired now).cache.lookup key = none := by
        apply Option.eq_none_iff_forall_not_mem.mpr
        intro other hmem
        obtain ⟨hother, halive⟩ := (hkept other).mp hmem
        obtain rfl := Option.some.inj (hentry.symm.trans hother)
        exact absurd (hexpired.symm.trans halive) (by simp)
      rw [hnone]
      exact ⟨rfl, by simp [alive_entry, hexpired]⟩

end TaskResultCache
end NexusTask
