import Mathlib.Data.List.Induction

/-!
# The last write

A log is a list of entries, the latest at the end, and an entry writes a cell or does not. What the
cell holds is what the last entry to write it wrote. `lastWrite_eq_iff` compares a log with one in
which some entries that did not write the cell do: the cell holds the same exactly if each of these
writes is overwritten later, or is of what the cell held already.
-/

set_option autoImplicit false

namespace Log

universe u v w
variable {ι : Type u} {β : Type v}

/-- What the last entry to write the cell wrote. -/
def lastWrite (written : ι → Option β) (log : List ι) : Option β := log.reverse.findSome? written

variable {written written' : ι → Option β} {log before after : List ι} {i : ι} {b : β}

theorem lastWrite_singleton : lastWrite written [i] = written i := by
  unfold lastWrite
  rw [List.reverse_singleton, List.findSome?_singleton]

theorem lastWrite_append : lastWrite written (before ++ after)
    = (lastWrite written after).or (lastWrite written before) := by
  unfold lastWrite
  rw [List.reverse_append, List.findSome?_append]

theorem lastWrite_concat :
    lastWrite written (log ++ [i]) = (written i).or (lastWrite written log) := by
  rw [lastWrite_append, lastWrite_singleton]

theorem lastWrite_eq_none : lastWrite written log = none ↔ ∀ i ∈ log, written i = none := by
  unfold lastWrite
  rw [List.findSome?_eq_none_iff]
  simp

theorem lastWrite_eq_some : lastWrite written log = some b ↔
    ∃ before i after, log = before ++ i :: after ∧ written i = some b ∧
      ∀ j ∈ after, written j = none := by
  constructor
  · intro h
    obtain ⟨rest, i, front, hsplit, hi, hrest⟩ := List.findSome?_eq_some_iff.mp h
    refine ⟨front.reverse, i, rest.reverse, ?_, hi, ?_⟩
    · rw [← List.reverse_reverse log, hsplit]
      simp
    · intro j hj
      exact hrest j (List.mem_reverse.mp hj)
  · rintro ⟨before, i, after, rfl, hi, hafter⟩
    apply List.findSome?_eq_some_iff.mpr
    refine ⟨after.reverse, i, before.reverse, by simp, hi, ?_⟩
    intro j hj
    exact hafter j (List.mem_reverse.mp hj)

/-- Entries that do not write the cell can be left out. -/
theorem lastWrite_filter {p : ι → Bool} (h : ∀ i, p i = false → written i = none) :
    lastWrite written (log.filter p) = lastWrite written log := by
  induction log using List.reverseRecOn with
  | nil => rfl
  | append_singleton log i ih =>
    rw [List.filter_append, lastWrite_append, lastWrite_concat, ih]
    cases hp : p i with
    | true =>
      rw [List.filter_cons_of_pos hp, List.filter_nil, lastWrite_singleton]
    | false =>
      rw [List.filter_cons_of_neg (by simp [hp]), List.filter_nil, h i hp]
      rfl

theorem lastWrite_map {κ : Type w} (f : κ → ι) (log : List κ) :
    lastWrite written (log.map f) = lastWrite (fun k => written (f k)) log := by
  unfold lastWrite
  rw [← List.map_reverse, List.findSome?_map]
  rfl

/-- Nothing after the entries `before` writes the cell. -/
theorem lastWrite_append_of_none (hafter : ∀ j ∈ after, written j = none) :
    lastWrite written (before ++ after) = lastWrite written before := by
  rw [lastWrite_append, lastWrite_eq_none.mpr hafter, Option.none_or]

/-- **Further writes.** -/
theorem lastWrite_eq_iff (h : ∀ i ∈ log, written i = none ∨ written i = written' i) :
    lastWrite written' log = lastWrite written log ↔
      ∀ before i after b, log = before ++ i :: after → written i = none → written' i = some b →
        (∃ j ∈ after, ∃ b', written' j = some b') ∨ lastWrite written before = some b := by
  have hnone : ∀ i ∈ log, written' i = none → written i = none := by
    intro i hi hi'
    rcases h i hi with hi | hi
    · exact hi
    · rw [hi, hi']
  constructor
  · rintro heq before i after b rfl hi hi'
    by_cases hlater : ∃ j ∈ after, ∃ b', written' j = some b'
    · exact .inl hlater
    right
    have hafter' : ∀ j ∈ after, written' j = none := fun j hj =>
      Option.eq_none_iff_forall_ne_some.mpr fun b' hb' => hlater ⟨j, hj, b', hb'⟩
    have hrest : ∀ j ∈ i :: after, written j = none := by
      intro j hj
      rcases List.mem_cons.mp hj with rfl | hj
      · exact hi
      · exact hnone j (by simp [hj]) (hafter' j hj)
    rw [← lastWrite_append_of_none hrest, ← heq]
    exact lastWrite_eq_some.mpr ⟨before, i, after, rfl, hi', hafter'⟩
  · intro hcond
    cases hlast : lastWrite written' log with
    | none =>
      have hall := lastWrite_eq_none.mp hlast
      exact (lastWrite_eq_none.mpr fun i hi => hnone i hi (hall i hi)).symm
    | some b =>
      obtain ⟨before, i, after, rfl, hi', hafter'⟩ := lastWrite_eq_some.mp hlast
      have hafter : ∀ j ∈ after, written j = none := fun j hj =>
        hnone j (by simp [hj]) (hafter' j hj)
      symm
      rcases h i (by simp) with hi | hi
      · rcases hcond before i after b rfl hi hi' with ⟨j, hj, b', hb'⟩ | hbefore
        · exact absurd ((hafter' j hj).symm.trans hb') (by simp)
        · rw [← hbefore]
          apply lastWrite_append_of_none
          intro j hj
          rcases List.mem_cons.mp hj with rfl | hj
          · exact hi
          · exact hafter j hj
      · exact lastWrite_eq_some.mpr ⟨before, i, after, rfl, hi.trans hi', hafter⟩

end Log
