import Mathlib.Data.List.AList
import NexusTask.Lib.LastWrite
import NexusTask.Lib.Trim

/-!
# `Config`

A table of strings, read from a file of `key = value` lines. A `std::string` is a list of
characters; `none` stands for `npos` where a position is given or returned.
-/

set_option autoImplicit false

namespace NexusTask

abbrev Text := List Char

namespace Text

/-- One of the characters of `" \t"`. -/
def blank (c : Char) : Bool := c = ' ' || c = '\t'

/-- `find_first_not_of(" \t")`. -/
def findFirstNotOf (s : Text) : Option Nat := s.findIdx? fun c => !blank c

/-- `find_last_not_of(" \t")`. -/
def findLastNotOf (s : Text) : Option Nat :=
  (s.reverse.findIdx? fun c => !blank c).map fun i => s.length - 1 - i

/-- `pos + 1`. `npos` is the largest `size_t`: one more is 0. -/
def afterPos : Option Nat → Nat
  | some pos => pos + 1
  | none => 0

/-- `erase(pos, count)`, up to the end if `count` is `npos`. -/
def erase (s : Text) (pos : Nat) (count : Option Nat) : Text :=
  match count with
  | some n => s.take pos ++ s.drop (pos + n)
  | none => s.take pos

/-- `s.erase(0, s.find_first_not_of(" \t"))` and `s.erase(s.find_last_not_of(" \t") + 1)`. -/
def trimmed (s : Text) : Text :=
  let s := s.erase 0 s.findFirstNotOf
  s.erase (afterPos s.findLastNotOf) none

/-- `std::getline`: the line and what is left of the file, `none` if the file is at its end. -/
def getline : Text → Option (Text × Text)
  | [] => none
  | text => some (text.takeWhile (· ≠ '\n'), (text.dropWhile (· ≠ '\n')).drop 1)

/-- The lines that `getline` returns until it fails (`getlines_eq`). -/
def getlines : Text → List Text
  | [] => []
  | c :: rest =>
      if c = '\n' then [] :: getlines rest
      else match getlines rest with
        | [] => [[c]]
        | line :: lines => (c :: line) :: lines

end Text

structure Config where
  values : AList fun _ : Text => Text

namespace Config

def new : Config := { values := ∅ }

def set (config : Config) (key value : Text) : Config :=
  { values := config.values.insert key value }

def get (config : Config) (key : Text) (defaultValue : Text := []) : Text :=
  (config.values.lookup key).getD defaultValue

def has (config : Config) (key : Text) : Bool := (config.values.lookup key).isSome

/-- In the order of the table, which is not said. -/
def keys (config : Config) : List Text := config.values.keys

/-- What a line assigns to what: nothing if it is empty or a comment, or has no `=`. -/
def parseLine (line : Text) : Option (Text × Text) :=
  if line = [] ∨ line.head? = some '#' then none
  else match line.findIdx? (· = '=') with
    | none => none
    | some pos => some (Text.trimmed (line.take pos), Text.trimmed (line.drop (pos + 1)))

/-- The body of the loop over the lines. -/
def readLine (config : Config) (line : Text) : Config :=
  match parseLine line with
  | some (key, value) => config.set key value
  | none => config

/-- `none` is a file that cannot be opened. -/
def loadFromFile (file : Option Text) : Config :=
  match file with
  | some text => (Text.getlines text).foldl readLine new
  | none => new

end Config

/-! ## The strings -/

namespace Text

open Trimming

theorem erase_front (s : Text) : s.erase 0 s.findFirstNotOf = s.dropWhile blank := by
  rw [List.dropWhile_eq_drop_findIdx_not]
  cases hpos : s.findFirstNotOf with
  | none =>
    have hlength := List.findIdx?_eq_none_iff_findIdx_eq.mp hpos
    simp [erase, hlength]
  | some pos =>
    obtain ⟨_, hidx⟩ := List.findIdx?_eq_some_iff_findIdx_eq.mp hpos
    simp [erase, hidx]

theorem erase_back (s : Text) : s.erase (afterPos s.findLastNotOf) none = s.rdropWhile blank := by
  unfold List.rdropWhile
  rw [List.dropWhile_eq_drop_findIdx_not, List.drop_reverse, List.reverse_reverse]
  unfold findLastNotOf
  cases hpos : s.reverse.findIdx? fun c => !blank c with
  | none =>
    have hlength := List.findIdx?_eq_none_iff_findIdx_eq.mp hpos
    simp [erase, afterPos, hlength]
  | some pos =>
    obtain ⟨hlt, hidx⟩ := List.findIdx?_eq_some_iff_findIdx_eq.mp hpos
    rw [List.length_reverse] at hlt
    have hlast : s.length - 1 - pos + 1 = s.length - pos := by omega
    simp [erase, afterPos, hidx, hlast]

theorem trimmed_eq (s : Text) : s.trimmed = trim blank s := by
  unfold trimmed trim
  dsimp only
  rw [erase_back, erase_front]

theorem getlines_eq (text : Text) : getlines text =
    match getline text with
    | none => []
    | some (line, rest) => line :: getlines rest := by
  induction text with
  | nil => rfl
  | cons c rest ih =>
    by_cases hc : c = '\n'
    · simp [getlines, getline, hc]
    · rw [getlines, if_neg hc, ih]
      cases rest with
      | nil => simp [getline, getlines, hc]
      | cons c' rest => simp [getline, hc]

/-- They are what stands between the newlines, less an empty end. -/
theorem splitOn_eq (text : Text) :
    text.splitOn '\n' = getlines text ∨ text.splitOn '\n' = getlines text ++ [[]] := by
  induction text with
  | nil => exact .inr rfl
  | cons c rest ih =>
    rw [List.splitOn_cons_eq_if_modifyHead, getlines]
    by_cases hc : c = '\n'
    · rw [if_pos hc, if_pos (by simp [hc])]
      rcases ih with ih | ih
      · exact .inl (congrArg _ ih)
      · exact .inr (congrArg _ ih)
    · rw [if_neg hc, if_neg (by simp [hc])]
      cases hlines : getlines rest with
      | nil =>
        left
        rcases ih with ih | ih
        · exact absurd (ih.trans hlines) (List.splitOn_ne_nil _ _)
        · rw [ih, hlines]
          rfl
      | cons line lines =>
        rcases ih with ih | ih
        · left
          rw [ih, hlines]
          rfl
        · right
          rw [ih, hlines]
          rfl

/-- Nothing but spaces and tabs. -/
def Blanks (s : Text) : Prop := ∀ c ∈ s, blank c = true

instance (s : Text) : Decidable (Blanks s) :=
  decidable_of_iff (s.all blank = true) List.all_eq_true

theorem Blanks.not_mem {s : Text} (h : Blanks s) {c : Char} (hc : blank c = false) : c ∉ s := by
  intro hmem
  exact absurd ((h c hmem).symm.trans hc) (by simp)

end Text

/-! ## The lines and the table -/

namespace Config

open Log

theorem parseLine_of_skipped {line : Text}
    (h : line = [] ∨ line.head? = some '#' ∨ '=' ∉ line) : parseLine line = none := by
  unfold parseLine
  split
  next => rfl
  next hskip =>
    rcases h with h | h | h
    · exact absurd (.inl h) hskip
    · exact absurd (.inr h) hskip
    · have hpos : line.findIdx? (· = '=') = none := by
        apply List.findIdx?_eq_none_iff.mpr
        intro c hc
        exact decide_eq_false fun heq => h (heq ▸ hc)
      rw [hpos]

/-- The line is split at the first `=`. -/
theorem parseLine_append {key value : Text} (hkey : '=' ∉ key) (hstart : key.head? ≠ some '#') :
    parseLine (key ++ '=' :: value) = some (key.trimmed, value.trimmed) := by
  have hskip : ¬ (key ++ '=' :: value = [] ∨ (key ++ '=' :: value).head? = some '#') := by
    cases key with
    | nil => simp
    | cons c key => simpa using hstart
  have hpos : (key ++ '=' :: value).findIdx? (· = '=') = some key.length := by
    have hnone : key.findIdx? (· = '=') = none := by
      apply List.findIdx?_eq_none_iff.mpr
      intro c hc
      exact decide_eq_false fun heq => hkey (heq ▸ hc)
    rw [List.findIdx?_append, hnone]
    simp [List.findIdx?_cons]
  unfold parseLine
  rw [if_neg hskip, hpos]
  simp

/-- Blanks before a line that is not a comment. -/
theorem parseLine_indent {blanks line : Text} (hblanks : blanks.Blanks)
    (hcomment : line.head? ≠ some '#') : parseLine (blanks ++ line) = parseLine line := by
  have hno : '=' ∉ blanks := hblanks.not_mem (by decide)
  by_cases hassigns : '=' ∈ line
  · obtain ⟨key, value, rfl, hkey⟩ := List.eq_append_cons_of_mem hassigns
    have hstart : key.head? ≠ some '#' := by
      cases key with
      | nil => simp
      | cons c key => simpa using hcomment
    have hstart' : (blanks ++ key).head? ≠ some '#' := by
      cases blanks with
      | nil => exact hstart
      | cons c blanks =>
        intro hhead
        exact hblanks.not_mem (by decide) (List.mem_of_mem_head? hhead)
    rw [← List.append_assoc, parseLine_append (by simp [hno, hkey]) hstart',
      parseLine_append hkey hstart, Text.trimmed_eq, Text.trimmed_eq key,
      Trimming.trim_append_left hblanks]
  · rw [parseLine_of_skipped (.inr (.inr hassigns)), parseLine_of_skipped]
    exact .inr (.inr (by simp [hno, hassigns]))

/-- What the line assigns to `key`. -/
def assigned (key line : Text) : Option Text :=
  (parseLine line).bind fun p => if p.1 = key then some p.2 else none

theorem assigned_eq_some {key line value : Text} :
    assigned key line = some value ↔ parseLine line = some (key, value) := by
  unfold assigned
  cases parseLine line with
  | none => simp
  | some p =>
    obtain ⟨key', value'⟩ := p
    by_cases hkey : key' = key <;> simp [hkey]

theorem assigned_of_skipped {key line : Text}
    (h : line = [] ∨ line.head? = some '#' ∨ '=' ∉ line) : assigned key line = none := by
  rw [assigned, parseLine_of_skipped h]
  rfl

theorem lookup_readLine (config : Config) (key line : Text) :
    (config.readLine line).values.lookup key
      = (assigned key line).or (config.values.lookup key) := by
  unfold readLine assigned
  cases parseLine line with
  | none => rfl
  | some p =>
    obtain ⟨key', value⟩ := p
    by_cases hkey : key' = key
    · subst hkey
      simp [set]
    · simp [set, hkey, AList.lookup_insert_ne (Ne.symm hkey)]

theorem lookup_foldl (lines : List Text) (key : Text) :
    (lines.foldl readLine new).values.lookup key = lastWrite (assigned key) lines := by
  induction lines using List.reverseRecOn with
  | nil => rfl
  | append_singleton lines line ih =>
    rw [List.foldl_concat, lookup_readLine, ih, lastWrite_concat]

/-- **The table holds the last assignment of the file to each key.** -/
theorem lookup_loadFromFile (text key : Text) :
    (loadFromFile (some text)).values.lookup key
      = lastWrite (assigned key) (text.splitOn '\n') := by
  show ((Text.getlines text).foldl readLine new).values.lookup key = _
  rw [lookup_foldl]
  rcases Text.splitOn_eq text with hlines | hlines
  · rw [hlines]
  · rw [hlines, lastWrite_concat, assigned_of_skipped (.inl rfl), Option.none_or]

theorem mem_keys_iff_has {config : Config} {key : Text} :
    key ∈ config.keys ↔ config.has key = true := by
  unfold has
  rw [AList.lookup_isSome]
  exact AList.mem_keys.symm

theorem mem_keys {config : Config} {key : Text} :
    key ∈ config.keys ↔ ∃ value, config.values.lookup key = some value := by
  rw [mem_keys_iff_has]
  exact Option.isSome_iff_exists

end Config
end NexusTask
