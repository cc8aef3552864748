import NexusTask.Config

/-!
# Writing a configuration and loading it

What may be written so that it is read back: the pairs each on a line of its own, with blanks
wherever `load_from_file` trims, and between them any line that it skips.
-/

set_option autoImplicit false

namespace NexusTask
namespace Config

open Log Trimming

/-- A pair that a line can hold. -/
structure Writable (pair : Text × Text) : Prop where
  key_trimmed : Trimmed Text.blank pair.1
  value_trimmed : Trimmed Text.blank pair.2
  key_newline : '\n' ∉ pair.1
  value_newline : '\n' ∉ pair.2
  key_equals : '=' ∉ pair.1
  key_comment : pair.1.head? ≠ some '#'

/-- The lines of a file that was written for the pairs. -/
inductive Written : List (Text × Text) → List Text → Prop
  | nil : Written [] []
  | pair {pairs : List (Text × Text)} {lines : List Text} (key value before after last : Text)
      (hbefore : before.Blanks) (hafter : after.Blanks) (hlast : last.Blanks)
      (rest : Written pairs lines) :
      Written ((key, value) :: pairs) ((key ++ before ++ '=' :: (after ++ value ++ last)) :: lines)
  | skip {pairs : List (Text × Text)} {lines : List Text} (line : Text) (hline : '\n' ∉ line)
      (hskip : line = [] ∨ line.head? = some '#' ∨ '=' ∉ line) (rest : Written pairs lines) :
      Written pairs (line :: lines)

variable {pairs : List (Text × Text)} {lines : List Text}

/-- A line that was written for a pair. -/
theorem parseLine_written {key value before after last : Text} (h : Writable (key, value))
    (hbefore : before.Blanks) (hafter : after.Blanks) (hlast : last.Blanks) :
    parseLine (key ++ before ++ '=' :: (after ++ value ++ last)) = some (key, value) := by
  have hequals : '=' ∉ key ++ before := by
    intro hmem
    rcases List.mem_append.mp hmem with hmem | hmem
    · exact h.key_equals hmem
    · exact hbefore.not_mem (by decide) hmem
  have hstart : (key ++ before).head? ≠ some '#' := by
    cases key with
    | nil =>
      intro hhead
      exact hbefore.not_mem (by decide) (List.mem_of_mem_head? hhead)
    | cons c key => exact h.key_comment
  rw [parseLine_append hequals hstart, Text.trimmed_eq, Text.trimmed_eq,
    trim_append_right hbefore, h.key_trimmed.trim_eq, h.value_trimmed.trim_surround hafter hlast]

/-- The last assignment to a key is the pair. -/
theorem Written.lastWrite_iff (h : Written pairs lines) (hclean : ∀ p ∈ pairs, Writable p)
    (hkeys : (pairs.map Prod.fst).Nodup) (key : Text) :
    ∀ value, lastWrite (assigned key) lines = some value ↔ (key, value) ∈ pairs := by
  induction h with
  | nil => simp [lastWrite]
  | @pair pairs lines key' value' before after last hbefore hafter hlast rest ih =>
    rw [List.map_cons, List.nodup_cons] at hkeys
    have hrest := ih (fun p hp => hclean p (List.mem_cons_of_mem _ hp)) hkeys.2
    have hparse := parseLine_written (hclean _ List.mem_cons_self) hbefore hafter hlast
    intro value
    rw [← List.singleton_append, lastWrite_append, lastWrite_singleton, List.mem_cons]
    by_cases hkey : key' = key
    · subst hkey
      -- No later line assigns it: the keys are distinct.
      have habsent : ∀ w, (key', w) ∉ pairs := fun w hmem =>
        hkeys.1 (List.mem_map.mpr ⟨(key', w), hmem, rfl⟩)
      have hnone : lastWrite (assigned key') lines = none := by
        apply Option.eq_none_iff_forall_ne_some.mpr
        intro w hw
        exact habsent w ((hrest w).mp hw)
      rw [hnone, Option.none_or, assigned_eq_some, hparse]
      simp [habsent value, eq_comm]
    · have hassigned :
          assigned key (key' ++ before ++ '=' :: (after ++ value' ++ last)) = none := by
        unfold assigned
        rw [hparse]
        simp [hkey]
      rw [hassigned, Option.or_none, hrest]
      simp [Ne.symm hkey]
  | @skip pairs lines line hline hskip rest ih =>
    rw [← List.singleton_append, lastWrite_append, lastWrite_singleton,
      assigned_of_skipped hskip, Option.or_none]
    exact ih hclean hkeys

theorem Written.newline_not_mem (h : Written pairs lines) (hclean : ∀ p ∈ pairs, Writable p) :
    ∀ line ∈ lines, '\n' ∉ line := by
  induction h with
  | nil => simp
  | @pair pairs lines key value before after last hbefore hafter hlast rest ih =>
    have hfirst := hclean (key, value) List.mem_cons_self
    have hrest := ih fun p hp => hclean p (List.mem_cons_of_mem _ hp)
    have hblank : ∀ {blanks : Text}, blanks.Blanks → '\n' ∉ blanks := fun h =>
      h.not_mem (by decide)
    intro line hline
    rcases List.mem_cons.mp hline with rfl | hline
    · simp [hfirst.key_newline, hfirst.value_newline, hblank hbefore, hblank hafter, hblank hlast]
    · exact hrest line hline
  | @skip pairs lines line hline hskip rest ih =>
    intro line' hline'
    rcases List.mem_cons.mp hline' with rfl | hline'
    · exact hline
    · exact ih hclean line' hline'

/-- The lines of a file, each ended by a newline. -/
theorem splitOn_flatMap (h : ∀ line ∈ lines, '\n' ∉ line) :
    (lines.flatMap fun line => line ++ ['\n']).splitOn '\n' = lines ++ [[]] := by
  induction lines with
  | nil => rfl
  | cons line lines ih =>
    rw [List.flatMap_cons, List.append_assoc, List.singleton_append,
      List.splitOn_append_cons_self_of_not_mem (h line List.mem_cons_self),
      ih fun line' hline' => h line' (List.mem_cons_of_mem _ hline')]
    rfl

/-- **What was written is read back.** Every line ends in a newline, or every line but the last. -/
theorem load_of_written {text : Text} (hclean : ∀ p ∈ pairs, Writable p)
    (hkeys : (pairs.map Prod.fst).Nodup) (h : Written pairs lines)
    (htext : text = lines.flatMap (fun line => line ++ ['\n'])
      ∨ text = ['\n'].intercalate lines) :
    (loadFromFile (some text)).keys.Perm (pairs.map Prod.fst) ∧
      ∀ p ∈ pairs, ∀ defaultValue, (loadFromFile (some text)).get p.1 defaultValue = p.2 := by
  have hnewline := h.newline_not_mem hclean
  have hlast : ∀ key, lastWrite (assigned key) (text.splitOn '\n')
      = lastWrite (assigned key) lines := by
    intro key
    rcases htext with rfl | rfl
    · rw [splitOn_flatMap hnewline, lastWrite_concat, assigned_of_skipped (.inl rfl),
        Option.none_or]
    · by_cases hempty : lines = []
      · subst hempty
        rfl
      · rw [List.splitOn_intercalate '\n' hnewline hempty]
  have hlookup : ∀ key value,
      (loadFromFile (some text)).values.lookup key = some value ↔ (key, value) ∈ pairs := by
    intro key value
    rw [lookup_loadFromFile, hlast]
    exact h.lastWrite_iff hclean hkeys key value
  constructor
  · apply (List.perm_ext_iff_of_nodup (loadFromFile (some text)).values.keys_nodup hkeys).mpr
    intro key
    rw [List.mem_map]
    constructor
    · intro hmem
      obtain ⟨value, hvalue⟩ := mem_keys.mp hmem
      exact ⟨(key, value), (hlookup key value).mp hvalue, rfl⟩
    · rintro ⟨⟨key', value⟩, hmem, rfl⟩
      exact mem_keys.mpr ⟨value, (hlookup key' value).mpr hmem⟩
  · intro p hp defaultValue
    unfold get
    rw [(hlookup p.1 p.2).mpr hp]
    rfl

/-- A comment with an `=`, blanks wherever they may be, a value with an `=` and an empty pair. -/
theorem load_of_written_two :
    (loadFromFile (some ['#', 'a', '=', 'c', '\n', 'a', '\t', '=', ' ', 'b', '=', ' ', '\n', '\n',
        '=', '\n'])).get ['a'] = ['b', '='] := by
  have hclean : ∀ p ∈ ([(['a'], ['b', '=']), ([], [])] : List (Text × Text)), Writable p := by
    intro p hp
    simp only [List.mem_cons, List.not_mem_nil, or_false] at hp
    rcases hp with rfl | rfl
    · exact ⟨by decide, by decide, by decide, by decide, by decide, by decide⟩
    · exact ⟨by decide, by decide, by decide, by decide, by decide, by decide⟩
  have h : Written [(['a'], ['b', '=']), ([], [])]
      [['#', 'a', '=', 'c'], ['a', '\t', '=', ' ', 'b', '=', ' '], [], ['=']] := by
    apply Written.skip _ (by decide) (by decide)
    apply Written.pair ['a'] ['b', '='] ['\t'] [' '] [' '] (by decide) (by decide) (by decide)
    apply Written.skip _ (by decide) (by decide)
    exact Written.pair [] [] [] [] [] (by decide) (by decide) (by decide) .nil
  exact (load_of_written hclean (by decide) h (.inl rfl)).2 (['a'], ['b', '=']) (by decide) []

end Config
end NexusTask
