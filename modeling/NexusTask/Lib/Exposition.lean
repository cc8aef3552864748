import NexusTask.Lib.Decimal

/-!
# A text format for samples

A line is empty, a comment, the declaration of a type, or a sample: a name, a space and a number. A
name begins with a letter, `_` or `:`, may contain digits after that, and has one type at most. What
is written as a family, a help text, a type and a sample of one name, is read back as the sample.
-/

set_option autoImplicit false

namespace Exposition

/-! ## Reading -/

def nameStart (c : Char) : Bool := c.isAlpha || c == '_' || c == ':'

def nameChar (c : Char) : Bool := nameStart c || c.isDigit

def validName : List Char → Bool
  | [] => false
  | c :: s => nameStart c && s.all nameChar

structure Sample where
  name : List Char
  type : List Char
  value : Nat
  deriving DecidableEq

inductive Line
  | skip
  | type (name type : List Char)
  | sample (name : List Char) (value : Nat)
  deriving DecidableEq

/-- What follows the `#`. -/
def readComment : List (List Char) → Option Line
  | ['T', 'Y', 'P', 'E'] :: fields =>
    match fields with
    | [name, type] => if validName name then some (.type name type) else none
    | _ => none
  | _ => some .skip

/-- The fields of a line, as the spaces divide it. -/
def readFields : List (List Char) → Option Line
  | [[]] => some .skip
  | ['#'] :: fields => readComment fields
  | [name, value] => if validName name then (Decimal.read value).map (.sample name) else none
  | _ => none

/-- The samples on the lines, where `types` has been declared before them. -/
def readLines : List (List Char × List Char) → List (List Char) → Option (List Sample)
  | _, [] => some []
  | types, line :: lines =>
    match readFields (line.splitOn ' ') with
    | none => none
    | some .skip => readLines types lines
    | some (.type name type) =>
      if types.lookup name = none then readLines ((name, type) :: types) lines else none
    | some (.sample name value) =>
      (readLines types lines).map
        ({ name, type := (types.lookup name).getD "untyped".toList, value } :: ·)

def read (text : List Char) : Option (List Sample) := readLines [] (text.splitOn '\n')

/-! ## Names -/

theorem nameChar_of_validName {s : List Char} (h : validName s = true) {c : Char} (hc : c ∈ s) :
    nameChar c = true := by
  cases s with
  | nil => exact absurd hc List.not_mem_nil
  | cons d s =>
    obtain ⟨hd, hs⟩ := Bool.and_eq_true_iff.mp h
    rcases List.mem_cons.mp hc with rfl | hc
    · unfold nameChar
      rw [hd, Bool.true_or]
    · exact List.all_eq_true.mp hs c hc

theorem not_mem_of_validName {s : List Char} (h : validName s = true) {c : Char}
    (hc : nameChar c = false) : c ∉ s := by
  intro hmem
  exact absurd ((nameChar_of_validName h hmem).symm.trans hc) (by simp)

/-- A name that goes on with name characters. -/
theorem validName_append {s t : List Char} (ht : validName t = true) :
    validName (s ++ t) = true ↔ s = [] ∨ validName s = true := by
  cases s with
  | nil => simp [ht]
  | cons c s =>
    have hall : t.all nameChar = true :=
      List.all_eq_true.mpr fun _ hc => nameChar_of_validName ht hc
    simp [validName, hall]

theorem readComment_valid {fields : List (List Char)} {name : List Char} {value : Nat} :
    readComment fields ≠ some (.sample name value) := by
  unfold readComment
  split
  · split
    · split <;> simp
    · simp
  · simp

theorem readFields_valid {fields : List (List Char)} {name : List Char} {value : Nat}
    (h : readFields fields = some (.sample name value)) : validName name = true := by
  unfold readFields at h
  split at h
  next => exact absurd h (by simp)
  next => exact absurd h readComment_valid
  next name' _ _ _ =>
    split at h
    next hvalid =>
      obtain ⟨n, _, hn⟩ := Option.map_eq_some_iff.mp h
      obtain ⟨rfl, _⟩ := Line.sample.inj hn
      exact hvalid
    next => exact absurd h (by simp)
  next => exact absurd h (by simp)

theorem readLines_valid {types : List (List Char × List Char)} {lines : List (List Char)}
    {samples : List Sample} (h : readLines types lines = some samples) :
    ∀ s ∈ samples, validName s.name = true := by
  induction lines generalizing types samples with
  | nil =>
    obtain rfl : [] = samples := Option.some.inj h
    exact fun s hs => absurd hs List.not_mem_nil
  | cons line lines ih =>
    unfold readLines at h
    split at h
    next => exact absurd h (by simp)
    next => exact ih h
    next =>
      split at h
      next => exact ih h
      next => exact absurd h (by simp)
    next name value hline =>
      obtain ⟨rest, hrest, rfl⟩ := Option.map_eq_some_iff.mp h
      intro s hs
      rcases List.mem_cons.mp hs with rfl | hs
      · exact readFields_valid hline
      · exact ih hrest s hs

/-! ## Writing -/

structure Family extends Sample where
  help : List Char

namespace Family

variable (f : Family)

def helpLine : List Char := '#' :: ' ' :: "HELP ".toList ++ f.name ++ ' ' :: f.help

def typeLine : List Char := '#' :: ' ' :: "TYPE ".toList ++ f.name ++ ' ' :: f.type

def sampleLine : List Char := f.name ++ ' ' :: Nat.toDigits 10 f.value

/-- The lines of a family, with an empty one after them. -/
def lines : List (List Char) := [f.helpLine, f.typeLine, f.sampleLine, []]

def write : List Char :=
  f.helpLine ++ '\n' :: (f.typeLine ++ '\n' :: (f.sampleLine ++ ['\n']))

variable {f : Family}

theorem readFields_help : readFields (f.helpLine.splitOn ' ') = some .skip := by
  have hsplit : f.helpLine.splitOn ' '
      = ['#'] :: "HELP".toList :: (f.name ++ ' ' :: f.help).splitOn ' ' := by
    have hhash : f.helpLine = ['#'] ++ ' ' :: ("HELP".toList ++ ' ' :: (f.name ++ ' ' :: f.help)) :=
      by simp [helpLine]
    rw [hhash, List.splitOn_append_cons_self_of_not_mem (by decide),
      List.splitOn_append_cons_self_of_not_mem (by decide)]
  rw [hsplit]
  rfl

theorem readFields_type (hname : validName f.name = true) (htype : ' ' ∉ f.type) :
    readFields (f.typeLine.splitOn ' ') = some (.type f.name f.type) := by
  have hsplit : f.typeLine.splitOn ' ' = [['#'], "TYPE".toList, f.name, f.type] := by
    have hhash : f.typeLine = ['#'] ++ ' ' :: ("TYPE".toList ++ ' ' :: (f.name ++ ' ' :: f.type)) :=
      by simp [typeLine]
    rw [hhash, List.splitOn_append_cons_self_of_not_mem (by decide),
      List.splitOn_append_cons_self_of_not_mem (by decide),
      List.splitOn_append_cons_self_of_not_mem (not_mem_of_validName hname (by decide)),
      List.splitOn_eq_singleton htype]
  rw [hsplit]
  exact if_pos hname

theorem readFields_sample (hname : validName f.name = true) :
    readFields (f.sampleLine.splitOn ' ') = some (.sample f.name f.value) := by
  have hsplit : f.sampleLine.splitOn ' ' = [f.name, Nat.toDigits 10 f.value] := by
    unfold sampleLine
    rw [List.splitOn_append_cons_self_of_not_mem (not_mem_of_validName hname (by decide)),
      List.splitOn_eq_singleton (Decimal.not_mem_toDigits (by decide) _)]
  have hhash : f.name ≠ ['#'] := by
    intro h
    rw [h] at hname
    exact absurd hname (by decide)
  rw [hsplit]
  unfold readFields
  split
  next h => exact absurd (congrArg List.length h) (by simp)
  next h => exact absurd (List.cons.inj h).1 hhash
  next h =>
    obtain ⟨rfl, hvalue⟩ := List.cons.inj h
    obtain ⟨rfl, _⟩ := List.cons.inj hvalue
    rw [if_pos hname, Decimal.read_toDigits]
    rfl
  next _ _ h => exact absurd rfl (h _ _)

end Family

theorem readLines_families {types : List (List Char × List Char)} {families : List Family}
    (hname : ∀ f ∈ families, validName f.name = true) (htype : ∀ f ∈ families, ' ' ∉ f.type)
    (hfresh : ∀ f ∈ families, types.lookup f.name = none)
    (hnodup : (families.map fun f => f.name).Nodup) :
    readLines types (families.flatMap Family.lines)
      = some (families.map fun f => f.toSample) := by
  induction families generalizing types with
  | nil => rfl
  | cons f families ih =>
    obtain ⟨hnot, hrest⟩ := List.nodup_cons.mp hnodup
    have hf := hname f List.mem_cons_self
    have hfree : ∀ g ∈ families, ((f.name, f.type) :: types).lookup g.name = none := by
      intro g hg
      have hne : (g.name == f.name) = false := by
        apply beq_false_of_ne
        intro heq
        exact hnot (List.mem_map.mpr ⟨g, hg, heq⟩)
      rw [List.lookup_cons, hne]
      exact hfresh g (List.mem_cons_of_mem _ hg)
    have htail := ih (fun g hg => hname g (List.mem_cons_of_mem _ hg))
      (fun g hg => htype g (List.mem_cons_of_mem _ hg)) hfree hrest
    have hblank : readFields (List.splitOn ' ' []) = some .skip := rfl
    have hlookup : ((f.name, f.type) :: types).lookup f.name = some f.type := by simp
    simp only [List.flatMap_cons, Family.lines, List.cons_append, List.nil_append, readLines,
      Family.readFields_help, Family.readFields_type hf (htype f List.mem_cons_self),
      Family.readFields_sample hf, hfresh f List.mem_cons_self, hblank, hlookup, htail]
    rfl

/-- An empty line stands between any two families. -/
def write : List Family → List Char
  | [] => []
  | [f] => f.write
  | f :: g :: families => f.write ++ '\n' :: write (g :: families)

theorem write_eq {families : List Family} (h : families ≠ []) :
    write families = ['\n'].intercalate (families.flatMap Family.lines) := by
  induction families with
  | nil => exact absurd rfl h
  | cons f families ih =>
    cases families with
    | nil => simp [write, Family.write, Family.lines]
    | cons g families =>
      have hrest : (g :: families).flatMap Family.lines ≠ [] := by simp [Family.lines]
      rw [write, ih (List.cons_ne_nil _ _)]
      change _ = ['\n'].intercalate (f.lines ++ (g :: families).flatMap Family.lines)
      generalize (g :: families).flatMap Family.lines = rest at hrest ⊢
      simp only [Family.lines, Family.write, List.cons_append, List.nil_append,
        List.intercalate_cons_cons, List.intercalate_cons_of_ne_nil hrest, List.append_assoc]

/-- What a family needs to be written without escapes. -/
structure Family.Plain (f : Family) : Prop where
  name : validName f.name = true
  type : ' ' ∉ f.type ∧ '\n' ∉ f.type
  help : '\n' ∉ f.help

theorem Family.Plain.newline {f : Family} (h : f.Plain) : ∀ line ∈ f.lines, '\n' ∉ line := by
  have hname := not_mem_of_validName h.name (c := '\n') (by decide)
  have hdigits := Decimal.not_mem_toDigits (c := '\n') (by decide) f.value
  intro line hline
  simp only [Family.lines, List.mem_cons, List.not_mem_nil, or_false] at hline
  rcases hline with rfl | rfl | rfl | rfl
  · simp [Family.helpLine, hname, h.help]
  · simp [Family.typeLine, hname, h.type.2]
  · simp [Family.sampleLine, hname, hdigits]
  · exact List.not_mem_nil

/-- **What is written is read back.** -/
theorem read_write {families : List Family} (hsome : families ≠ [])
    (h : ∀ f ∈ families, f.Plain) (hnodup : (families.map fun f => f.name).Nodup) :
    read (write families) = some (families.map fun f => f.toSample) := by
  have hlines : ∀ line ∈ families.flatMap Family.lines, '\n' ∉ line := by
    intro line hline
    obtain ⟨f, hf, hline⟩ := List.mem_flatMap.mp hline
    exact (h f hf).newline line hline
  have hne : families.flatMap Family.lines ≠ [] := by
    cases families with
    | nil => exact absurd rfl hsome
    | cons f families => simp [Family.lines]
  unfold read
  rw [write_eq hsome, List.splitOn_intercalate '\n' hlines hne]
  exact readLines_families (fun f hf => (h f hf).name) (fun f hf => (h f hf).type.1)
    (fun f hf => rfl) hnodup

/-- A text that can be read has valid names only. -/
theorem valid_of_read {text : List Char} {samples : List Sample} (h : read text = some samples) :
    ∀ s ∈ samples, validName s.name = true := readLines_valid h

end Exposition
