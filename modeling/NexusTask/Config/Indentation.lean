import NexusTask.Config

/-!
# Blanks at the beginning of a line

`load_from_file` trims the key, so an assignment may be indented. It looks for the `#` of a comment
in the first column only: a comment with an `=` in it becomes an assignment when it is indented.
-/

set_option autoImplicit false

namespace NexusTask
namespace Config

open Log

/-- A line and the blanks that are put before it. -/
abbrev Marked := Text × Text

/-- The text with the blanks put in. -/
def indented (marked : List Marked) : Text := ['\n'].intercalate (marked.map fun m => m.1 ++ m.2)

/-- The same keys and the same values. -/
def Same (config config' : Config) : Prop :=
  (∀ key, key ∈ config.keys ↔ key ∈ config'.keys) ∧
    ∀ key defaultValue, config.get key defaultValue = config'.get key defaultValue

theorem same_iff {config config' : Config} :
    Same config config' ↔ ∀ key, config.values.lookup key = config'.values.lookup key := by
  constructor
  · rintro ⟨hkeys, hget⟩ key
    cases hvalue : config.values.lookup key with
    | none =>
      symm
      apply Option.eq_none_iff_forall_ne_some.mpr
      intro value hvalue'
      obtain ⟨_, hsome⟩ := mem_keys.mp ((hkeys key).mpr (mem_keys.mpr ⟨value, hvalue'⟩))
      exact absurd (hvalue.symm.trans hsome) (by simp)
    | some value =>
      obtain ⟨value', hvalue'⟩ := mem_keys.mp ((hkeys key).mp (mem_keys.mpr ⟨value, hvalue⟩))
      have heq := hget key []
      unfold get at heq
      rw [hvalue, hvalue'] at heq
      rw [hvalue']
      exact congrArg some heq
  · intro h
    constructor
    · intro key
      rw [mem_keys, mem_keys, h]
    · intro key defaultValue
      unfold get
      rw [h]

theorem newline_not_mem_of_splitOn (text : Text) {line : Text} (h : line ∈ text.splitOn '\n') :
    '\n' ∉ line := by
  induction text generalizing line with
  | nil =>
    obtain rfl := List.mem_singleton.mp h
    exact List.not_mem_nil
  | cons c rest ih =>
    rw [List.splitOn_cons_eq_if_modifyHead] at h
    cases hsplit : rest.splitOn '\n' with
    | nil => exact absurd hsplit (List.splitOn_ne_nil _ _)
    | cons line' lines =>
      rw [hsplit] at h ih
      split at h
      next =>
        rcases List.mem_cons.mp h with rfl | h
        · exact List.not_mem_nil
        · exact ih h
      next hc =>
        rcases List.mem_cons.mp h with rfl | h
        · have hne : '\n' ≠ c := fun heq => hc (by simp [← heq])
          simp [hne, ih List.mem_cons_self]
        · exact ih (List.mem_cons_of_mem _ h)

variable {marked : List Marked} {text : Text}

/-- The lines of the text with the blanks put in. -/
theorem splitOn_indented (hblank : ∀ m ∈ marked, m.1.Blanks)
    (htext : text.splitOn '\n' = marked.map Prod.snd) :
    (indented marked).splitOn '\n' = marked.map fun m => m.1 ++ m.2 := by
  apply List.splitOn_intercalate
  · intro line hline
    obtain ⟨m, hm, rfl⟩ := List.mem_map.mp hline
    have hold : '\n' ∉ m.2 := by
      apply newline_not_mem_of_splitOn text
      rw [htext]
      exact List.mem_map.mpr ⟨m, hm, rfl⟩
    intro hmem
    rcases List.mem_append.mp hmem with hmem | hmem
    · exact (hblank m hm).not_mem (by decide) hmem
    · exact hold hmem
  · intro hnil
    rw [List.map_eq_nil_iff] at hnil
    rw [hnil] at htext
    exact List.splitOn_ne_nil _ _ htext

/-- Of every line to which blanks are given, what it assigns: as before, unless it is a comment. -/
theorem assigned_marked (hblank : ∀ m ∈ marked, m.1.Blanks) (key : Text)
    {m : Marked} (hm : m ∈ marked) :
    assigned key m.2 = none ∨ assigned key m.2 = assigned key (m.1 ++ m.2) := by
  by_cases hcomment : m.2.head? = some '#'
  · exact .inl (assigned_of_skipped (.inr (.inl hcomment)))
  · right
    unfold assigned
    rw [parseLine_indent (hblank m hm) hcomment]

/-- A comment that has become an assignment of `value` to `key`. -/
def Uncommented (m : Marked) (key value : Text) : Prop :=
  m.1 ≠ [] ∧ m.2.head? = some '#' ∧ parseLine (m.1 ++ m.2) = some (key, value)

theorem uncommented_iff (hblank : ∀ m ∈ marked, m.1.Blanks) {key value : Text}
    {m : Marked} (hm : m ∈ marked) :
    Uncommented m key value ↔
      assigned key m.2 = none ∧ assigned key (m.1 ++ m.2) = some value := by
  rw [assigned_eq_some]
  constructor
  · rintro ⟨_, hcomment, hparse⟩
    exact ⟨assigned_of_skipped (.inr (.inl hcomment)), hparse⟩
  · rintro ⟨hnone, hparse⟩
    have hcomment : m.2.head? = some '#' := by
      by_contra hother
      rw [parseLine_indent (hblank m hm) hother] at hparse
      exact absurd (hnone.symm.trans (assigned_eq_some.mpr hparse)) (by simp)
    refine ⟨?_, hcomment, hparse⟩
    intro hempty
    rw [hempty, List.nil_append, parseLine_of_skipped (.inr (.inl hcomment))] at hparse
    exact absurd hparse (by simp)

/-- **Blanks are without effect exactly where no comment comes to matter.** A comment that they turn
into an assignment does not if a later line assigns the key anyway, or the last line before it to
assign the key gave it the same value. -/
theorem load_indented_iff (hblank : ∀ m ∈ marked, m.1.Blanks)
    (htext : text.splitOn '\n' = marked.map Prod.snd) :
    Same (loadFromFile (some (indented marked))) (loadFromFile (some text)) ↔
      ∀ before m after key value, marked = before ++ m :: after → Uncommented m key value →
        (∃ m' ∈ after, ∃ value', parseLine (m'.1 ++ m'.2) = some (key, value')) ∨
          ∃ front last back, before = front ++ last :: back ∧
            parseLine last.2 = some (key, value) ∧
            ∀ m' ∈ back, ∀ value', parseLine m'.2 ≠ some (key, value') := by
  have hsplit := splitOn_indented hblank htext
  have hkey : ∀ key, ((loadFromFile (some (indented marked))).values.lookup key
        = (loadFromFile (some text)).values.lookup key) ↔
      lastWrite (fun m => assigned key (m.1 ++ m.2)) marked
        = lastWrite (fun m : Marked => assigned key m.2) marked := by
    intro key
    rw [lookup_loadFromFile, lookup_loadFromFile, hsplit, htext, lastWrite_map, lastWrite_map]
  rw [same_iff]
  constructor
  · rintro h before m after key value rfl huncommented
    have heq := (hkey key).mp (h key)
    have hm : m ∈ before ++ m :: after := by simp
    obtain ⟨hnone, hsome⟩ := (uncommented_iff hblank hm).mp huncommented
    rcases (lastWrite_eq_iff fun m hm => assigned_marked hblank key hm).mp heq
      before m after value rfl hnone hsome with ⟨m', hm', value', hlater⟩ | hbefore
    · exact .inl ⟨m', hm', value', assigned_eq_some.mp hlater⟩
    · obtain ⟨front, last, back, rfl, hlast, hback⟩ := lastWrite_eq_some.mp hbefore
      refine .inr ⟨front, last, back, rfl, assigned_eq_some.mp hlast, ?_⟩
      intro m' hm' value' hparse
      exact absurd ((hback m' hm').symm.trans (assigned_eq_some.mpr hparse)) (by simp)
  · intro h key
    apply (hkey key).mpr
    apply (lastWrite_eq_iff fun m hm => assigned_marked hblank key hm).mpr
    rintro before m after value rfl hnone hsome
    have hm : m ∈ before ++ m :: after := by simp
    have huncommented := (uncommented_iff hblank hm).mpr ⟨hnone, hsome⟩
    rcases h before m after key value rfl huncommented with
      ⟨m', hm', value', hlater⟩ | ⟨front, last, back, rfl, hlast, hback⟩
    · exact .inl ⟨m', hm', value', assigned_eq_some.mpr hlater⟩
    · right
      apply lastWrite_eq_some.mpr
      refine ⟨front, last, back, rfl, assigned_eq_some.mpr hlast, ?_⟩
      intro m' hm'
      apply Option.eq_none_iff_forall_ne_some.mpr
      intro value' hvalue'
      exact hback m' hm' value' (assigned_eq_some.mp hvalue')

/-- A comment whose key is assigned again below it. -/
theorem load_indented_overwritten :
    Same (loadFromFile (some (indented
        [([' '], ['#', 'a', '=', 'b']), ([], [' ', '#', 'a', '='])])))
      (loadFromFile (some ['#', 'a', '=', 'b', '\n', ' ', '#', 'a', '='])) := by
  refine (load_indented_iff (by decide) (by decide)).mpr ?_
  intro before m after key value hsplit huncommented
  obtain ⟨hblanks, _, hparse⟩ := huncommented
  cases before with
  | nil =>
    obtain ⟨rfl, rfl⟩ := List.cons.inj hsplit
    have hvalue : parseLine [' ', '#', 'a', '=', 'b'] = some (['#', 'a'], ['b']) := by decide
    obtain ⟨rfl, rfl⟩ := Prod.mk.inj (Option.some.inj (hvalue.symm.trans hparse))
    exact .inl ⟨_, List.mem_singleton_self _, [], by decide⟩
  | cons first before =>
    obtain ⟨_, hrest⟩ := List.cons.inj hsplit
    cases before with
    | nil =>
      obtain ⟨rfl, _⟩ := List.cons.inj hrest
      exact absurd rfl hblanks
    | cons second before => exact absurd hrest (by simp)

/-- A comment that is not. -/
theorem comment_uncommented :
    ¬ Same (loadFromFile (some (indented [([' '], ['#', 'a', '=', 'b'])])))
      (loadFromFile (some ['#', 'a', '=', 'b'])) := by
  intro h
  have hkey := (h.1 ['#', 'a']).mp (by decide)
  exact absurd hkey (by decide)

end Config
end NexusTask
