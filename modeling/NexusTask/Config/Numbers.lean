import NexusTask.Config
import NexusTask.Lib.Decimal

/-!
# Integer values

`get_int` reads the value, or the printed default where there is none, with `std::stoi`, and catches
what it throws. `stoi` reads the numeral that a text begins with: what follows it is not looked at.
-/

set_option autoImplicit false

namespace NexusTask
namespace Text

open Decimal

/-- `isspace` of the C locale. -/
def isSpace (c : Char) : Bool :=
  c = ' ' || c = '\t' || c = '\n' || c = '\x0b' || c = '\x0c' || c = '\r'

/-- What `stoi` throws. -/
inductive ConversionError where
  | invalidArgument
  | outOfRange
  deriving DecidableEq

/-- `std::stoi`. A NUL in the text ends the numeral as any other character does. -/
def stoi (s : Text) : Except ConversionError Int32 :=
  match scan (s.dropWhile isSpace) with
  | none => .error .invalidArgument
  | some n =>
      if h : Int32.minValue.toInt ≤ n ∧ n ≤ Int32.maxValue.toInt
        then .ok (Int32.ofIntLE n h.1 h.2)
        else .error .outOfRange

/-- `std::to_string`. -/
def toString (n : Int32) : Text := print n.toInt

/-- White space and then a numeral. -/
def StartsWith (s : Text) (n : Int) : Prop := Begins (s.dropWhile isSpace) n

end Text

namespace Config

open Decimal Text

def getInt (config : Config) (key : Text) (defaultValue : Int32 := 0) :
    Except ConversionError Int32 :=
  tryCatch (stoi (config.get key (Text.toString defaultValue))) fun _ => .ok defaultValue

/-- The rule that a value counts if it denotes an `int` as a whole, and that any other value is as
none. -/
structure ReadsWhole (config : Config) (key : Text) (defaultValue : Int32) : Prop where
  absent : config.values.lookup key = none → config.getInt key defaultValue = .ok defaultValue
  numeral : ∀ value, config.values.lookup key = some value →
    ∀ n : Int32, Numeral value n.toInt → config.getInt key defaultValue = .ok n
  other : ∀ value, config.values.lookup key = some value →
    (∀ n : Int32, ¬ Numeral value n.toInt) → config.getInt key defaultValue = .ok defaultValue

end Config

/-! ## `stoi` and `to_string` -/

namespace Text

open Decimal

variable {s : Text} {n : Int32}

theorem isSpace_of_isDigit {c : Char} (h : c.isDigit = true) : isSpace c = false := by
  unfold isSpace
  simp only [Bool.or_eq_false_iff, decide_eq_false_iff_not]
  refine ⟨⟨⟨⟨⟨?_, ?_⟩, ?_⟩, ?_⟩, ?_⟩, ?_⟩
  all_goals
    intro hc
    rw [hc] at h
    exact absurd h (by decide)

theorem startsWith_of_numeral {m : Int} (h : Numeral s m) : StartsWith s m := by
  have hspace : s.dropWhile isSpace = s := by
    cases h with
    | plain h =>
      cases s with
      | nil => rfl
      | cons c s =>
        have hc := isSpace_of_isDigit (h.digit c List.mem_cons_self)
        exact List.dropWhile_cons_of_neg (by simp [hc])
    | plus h => rfl
    | minus h => rfl
  unfold StartsWith
  rw [hspace]
  exact h.begins

/-- The range is that of the numeral that was read: an `Int32` is always in it. -/
theorem stoi_eq_ok_iff : stoi s = .ok n ↔ s.StartsWith n.toInt := by
  unfold StartsWith
  rw [← scan_eq_some_iff]
  unfold stoi
  constructor
  · intro h
    split at h
    next => cases h
    next m hscan =>
      split at h
      next hrange =>
        cases h
        rw [hscan, Int32.toInt_ofIntLE]
      next => cases h
  · intro h
    rw [h]
    dsimp only
    rw [dif_pos ⟨n.minValue_le_toInt, n.toInt_le⟩, Int32.ofIntLE_toInt]

theorem stoi_eq_ok_of_numeral (h : Numeral s n.toInt) : stoi s = .ok n :=
  stoi_eq_ok_iff.mpr (startsWith_of_numeral h)

theorem stoi_toString (n : Int32) : stoi (Text.toString n) = .ok n :=
  stoi_eq_ok_of_numeral (numeral_print n.toInt)

end Text

/-! ## `get_int` -/

namespace Config

open Decimal Text

variable {config : Config} {key value : Text} {n d : Int32}

theorem getInt_absent (h : config.values.lookup key = none) : config.getInt key d = .ok d := by
  unfold getInt get
  rw [h, Option.getD_none, stoi_toString]
  rfl

theorem getInt_ok (h : config.values.lookup key = some value) (hstoi : stoi value = .ok n) :
    config.getInt key d = .ok n := by
  unfold getInt get
  rw [h, Option.getD_some, hstoi]
  rfl

theorem getInt_error {e : ConversionError} (h : config.values.lookup key = some value)
    (hstoi : stoi value = .error e) : config.getInt key d = .ok d := by
  unfold getInt get
  rw [h, Option.getD_some, hstoi]
  rfl

/-- **`get_int` reads whole values exactly where a value that begins with a numeral is one**, or
the numeral happens to denote the default. -/
theorem readsWhole_iff (config : Config) (key : Text) (d : Int32) :
    config.ReadsWhole key d ↔
      ∀ value, config.values.lookup key = some value → ∀ n : Int32, value.StartsWith n.toInt →
        Numeral value n.toInt ∨ n = d := by
  constructor
  · intro h value hvalue n hstart
    have hget : config.getInt key d = .ok n := getInt_ok hvalue (stoi_eq_ok_iff.mpr hstart)
    by_cases hwhole : ∃ m : Int32, Numeral value m.toInt
    · obtain ⟨m, hm⟩ := hwhole
      have heq : m = n := by
        have hother := h.numeral value hvalue m hm
        rw [hget] at hother
        cases hother
        rfl
      exact .inl (heq ▸ hm)
    · right
      have hdefault := h.other value hvalue fun m hm => hwhole ⟨m, hm⟩
      rw [hget] at hdefault
      cases hdefault
      rfl
  · intro h
    refine ⟨getInt_absent, ?_, ?_⟩
    · intro value hvalue n hn
      exact getInt_ok hvalue (stoi_eq_ok_of_numeral hn)
    · intro value hvalue hnone
      cases hstoi : stoi value with
      | error e => exact getInt_error hvalue hstoi
      | ok n =>
        rcases h value hvalue n (stoi_eq_ok_iff.mp hstoi) with hn | hn
        · exact absurd hn (hnone n)
        · rw [getInt_ok hvalue hstoi, hn]

/-- `12abc`, which is no number, is read as 12. -/
theorem twelve_abc_is_read :
    ¬ ((new.set ['k'] ['1', '2', 'a', 'b', 'c']).ReadsWhole ['k'] 0) := by
  intro h
  have hother := h.other ['1', '2', 'a', 'b', 'c'] rfl ?_
  · exact absurd hother (by decide)
  · intro n hn
    generalize n.toInt = m at hn
    cases hn with
    | plain hdigits => exact absurd (hdigits.digit 'a' (by decide)) (by decide)

end Config
end NexusTask
