import Mathlib.Data.List.TakeWhile

/-!
# Decimal numerals

An optional sign and digits, read off the front of a list of characters. What is printed for an
integer is read back as it.
-/

set_option autoImplicit false

namespace Decimal

variable {s rest : List Char} {n : Int}

/-- One digit or more. -/
structure Digits (s : List Char) : Prop where
  ne_nil : s ≠ []
  digit : ∀ c ∈ s, c.isDigit = true

/-- The list as a whole denotes the integer. -/
inductive Numeral : List Char → Int → Prop
  | plain {s : List Char} (h : Digits s) : Numeral s (Nat.ofDigitChars 10 s 0)
  | plus {s : List Char} (h : Digits s) : Numeral ('+' :: s) (Nat.ofDigitChars 10 s 0)
  | minus {s : List Char} (h : Digits s) : Numeral ('-' :: s) (-(Nat.ofDigitChars 10 s 0 : Int))

/-- The list begins with a numeral that no digit follows. -/
def Begins (s : List Char) (n : Int) : Prop :=
  ∃ numeral rest, s = numeral ++ rest ∧ Numeral numeral n ∧ ∀ c ∈ rest.head?, c.isDigit = false

def scanDigits (s : List Char) : Option Nat :=
  if s.takeWhile Char.isDigit = [] then none
  else some (Nat.ofDigitChars 10 (s.takeWhile Char.isDigit) 0)

/-- The longest numeral at the front. -/
def scan : List Char → Option Int
  | '-' :: s => (scanDigits s).map fun n : Nat => -(n : Int)
  | '+' :: s => (scanDigits s).map fun n : Nat => (n : Int)
  | s => (scanDigits s).map fun n : Nat => (n : Int)

/-- The whole list as a natural number. -/
def read (s : List Char) : Option Nat := if s.all Char.isDigit then scanDigits s else none

def print : Int → List Char
  | .ofNat n => Nat.toDigits 10 n
  | .negSucc n => '-' :: Nat.toDigits 10 (n + 1)

/-! ## Reading -/

theorem scanDigits_append (h : Digits s) (hrest : ∀ c ∈ rest.head?, c.isDigit = false) :
    scanDigits (s ++ rest) = some (Nat.ofDigitChars 10 s 0) := by
  have hend : rest.takeWhile Char.isDigit = [] := by
    cases rest with
    | nil => rfl
    | cons c rest => exact List.takeWhile_cons_of_neg (by simp [hrest c rfl])
  have htake : (s ++ rest).takeWhile Char.isDigit = s := by
    rw [List.takeWhile_append_of_pos h.digit, hend, List.append_nil]
  unfold scanDigits
  rw [htake, if_neg h.ne_nil]

theorem scan_of_digit {c : Char} (h : c.isDigit = true) :
    scan (c :: s) = (scanDigits (c :: s)).map fun n : Nat => (n : Int) := by
  unfold scan
  split
  next heq => exact absurd h (by simp [(List.cons.inj heq).1])
  next heq => exact absurd h (by simp [(List.cons.inj heq).1])
  next => rfl

theorem Numeral.scan_append (h : Numeral s n) (hrest : ∀ c ∈ rest.head?, c.isDigit = false) :
    scan (s ++ rest) = some n := by
  cases h with
  | plain h =>
    have hscan := scanDigits_append h hrest
    cases s with
    | nil => exact absurd rfl h.ne_nil
    | cons c s =>
      rw [List.cons_append] at hscan ⊢
      rw [scan_of_digit (h.digit c List.mem_cons_self), hscan]
      rfl
  | plus h =>
    rw [List.cons_append, scan, scanDigits_append h hrest]
    rfl
  | minus h =>
    rw [List.cons_append, scan, scanDigits_append h hrest]
    rfl

/-- The digits are read to their end, whatever sign they are given. -/
theorem scanDigits_spec {sign : Nat → Int} (h : (scanDigits s).map sign = some n) :
    ∃ digits rest, s = digits ++ rest ∧ Digits digits ∧ n = sign (Nat.ofDigitChars 10 digits 0) ∧
      ∀ c ∈ rest.head?, c.isDigit = false := by
  obtain ⟨m, hm, rfl⟩ := Option.map_eq_some_iff.mp h
  unfold scanDigits at hm
  split at hm
  next => exact absurd hm (by simp)
  next hne =>
    refine ⟨s.takeWhile Char.isDigit, s.dropWhile Char.isDigit, ?_, ⟨hne, ?_⟩, ?_, ?_⟩
    · exact List.takeWhile_append_dropWhile.symm
    · exact List.all_eq_true.mp List.all_takeWhile
    · exact congrArg sign (Option.some.inj hm).symm
    · intro c hc
      have hhead := List.head?_dropWhile_not Char.isDigit s
      rw [Option.mem_def.mp hc] at hhead
      exact hhead

/-- **`scan` reads the numeral that the list begins with, and fails when there is none.** -/
theorem scan_eq_some_iff : scan s = some n ↔ Begins s n := by
  constructor
  · intro h
    unfold scan at h
    split at h
    next s =>
      obtain ⟨digits, rest, rfl, hdigits, rfl, hrest⟩ := scanDigits_spec h
      exact ⟨'-' :: digits, rest, rfl, .minus hdigits, hrest⟩
    next s =>
      obtain ⟨digits, rest, rfl, hdigits, rfl, hrest⟩ := scanDigits_spec h
      exact ⟨'+' :: digits, rest, rfl, .plus hdigits, hrest⟩
    next s _ _ =>
      obtain ⟨digits, rest, rfl, hdigits, rfl, hrest⟩ := scanDigits_spec h
      exact ⟨digits, rest, rfl, .plain hdigits, hrest⟩
  · rintro ⟨numeral, rest, rfl, hnumeral, hrest⟩
    exact hnumeral.scan_append hrest

theorem Numeral.scan_eq (h : Numeral s n) : scan s = some n := by
  have hscan : scan (s ++ []) = some n := h.scan_append (by simp)
  rwa [List.append_nil] at hscan

theorem Numeral.begins (h : Numeral s n) : Begins s n := scan_eq_some_iff.mp h.scan_eq

/-! ## Printing -/

theorem digits_toDigits (n : Nat) : Digits (Nat.toDigits 10 n) where
  ne_nil := Nat.toDigits_ne_nil
  digit _ hc := Nat.isDigit_of_mem_toDigits (by decide) (by decide) hc

theorem read_toDigits (n : Nat) : read (Nat.toDigits 10 n) = some n := by
  have h := digits_toDigits n
  have hscan : scanDigits (Nat.toDigits 10 n ++ []) = _ := scanDigits_append h (by simp)
  rw [List.append_nil, Nat.ofDigitChars_ten_toDigits] at hscan
  unfold read
  rw [if_pos (List.all_eq_true.mpr h.digit), hscan]

theorem not_mem_toDigits {c : Char} (hc : c.isDigit = false) (n : Nat) : c ∉ Nat.toDigits 10 n := by
  intro hmem
  exact absurd ((digits_toDigits n).digit c hmem) (by simp [hc])

theorem numeral_print (n : Int) : Numeral (print n) n := by
  cases n with
  | ofNat n =>
    have h := Numeral.plain (digits_toDigits n)
    rwa [Nat.ofDigitChars_ten_toDigits] at h
  | negSucc n =>
    have h := Numeral.minus (digits_toDigits (n + 1))
    rwa [Nat.ofDigitChars_ten_toDigits] at h

end Decimal
