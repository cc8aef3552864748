import NexusTask.Lib.Decimal

/-!
# Tables of two columns

A header, and for each row a line with a name, a comma and a natural number. Every line ends in a
newline. A name has no comma and no newline in it, and there are no quotes.
-/

set_option autoImplicit false

namespace Table

variable {header name : List Char} {rows : List (List Char × Nat)}

def readRow (line : List Char) : Option (List Char × Nat) :=
  match line.splitOn ',' with
  | [name, value] => (Decimal.read value).map fun n => (name, n)
  | _ => none

/-- Nothing stands after the last newline. -/
def readRows : List (List Char) → Option (List (List Char × Nat))
  | [] => none
  | [[]] => some []
  | line :: lines =>
    match readRow line with
    | some row => (readRows lines).map (row :: ·)
    | none => none

def read (text : List Char) : Option (List Char × List (List Char × Nat)) :=
  match text.splitOn '\n' with
  | header :: lines => (readRows lines).map fun rows => (header, rows)
  | [] => none

def writeRow (row : List Char × Nat) : List Char := row.1 ++ ',' :: Nat.toDigits 10 row.2

def write (header : List Char) (rows : List (List Char × Nat)) : List Char :=
  (header :: rows.map writeRow).flatMap fun line => line ++ ['\n']

/-- Lines that end in newlines are lines with newlines between them and an empty one at the end. -/
theorem flatMap_newline (lines : List (List Char)) :
    (lines.flatMap fun line => line ++ ['\n']) = ['\n'].intercalate (lines ++ [[]]) := by
  induction lines with
  | nil => rfl
  | cons line lines ih =>
    rw [List.flatMap_cons, ih, List.cons_append, List.intercalate_cons_of_ne_nil (by simp),
      List.append_assoc]

theorem readRow_writeRow (hname : ',' ∉ name) (n : Nat) :
    readRow (writeRow (name, n)) = some (name, n) := by
  unfold readRow writeRow
  rw [List.splitOn_append_cons_self_of_not_mem hname,
    List.splitOn_eq_singleton (Decimal.not_mem_toDigits (by decide) n)]
  change (Decimal.read (Nat.toDigits 10 n)).map _ = _
  rw [Decimal.read_toDigits]
  rfl

theorem readRows_writeRows (hrows : ∀ row ∈ rows, ',' ∉ row.1) :
    readRows (rows.map writeRow ++ [[]]) = some rows := by
  induction rows with
  | nil => rfl
  | cons row rows ih =>
    obtain ⟨name, n⟩ := row
    have hrow := readRow_writeRow (hrows _ List.mem_cons_self) n
    have hrest := ih fun row hrow => hrows row (List.mem_cons_of_mem _ hrow)
    have hcons : ∀ lines, readRows (writeRow (name, n) :: lines)
        = (readRows lines).map ((name, n) :: ·) := by
      intro lines
      rw [readRows.eq_def]
      split
      next heq => exact absurd heq (List.cons_ne_nil _ _)
      next heq => exact absurd (List.cons.inj heq).1 (by simp [writeRow])
      next heq =>
        obtain ⟨rfl, rfl⟩ := List.cons.inj heq
        rw [hrow]
    rw [List.map_cons, List.cons_append, hcons, hrest]
    rfl

/-- **What is written is read back.** -/
theorem read_write (hheader : '\n' ∉ header) (hrows : ∀ row ∈ rows, ',' ∉ row.1 ∧ '\n' ∉ row.1) :
    read (write header rows) = some (header, rows) := by
  have hlines : ∀ line ∈ header :: (rows.map writeRow ++ [[]]), '\n' ∉ line := by
    intro line hline
    rcases List.mem_cons.mp hline with rfl | hline
    · exact hheader
    rcases List.mem_append.mp hline with hline | hline
    · obtain ⟨row, hrow, rfl⟩ := List.mem_map.mp hline
      have hdigits := Decimal.not_mem_toDigits (c := '\n') (by decide) row.2
      simp [writeRow, (hrows row hrow).2, hdigits]
    · obtain rfl := List.mem_singleton.mp hline
      exact List.not_mem_nil
  unfold read write
  rw [flatMap_newline, List.cons_append, List.splitOn_intercalate '\n' hlines (List.cons_ne_nil _ _)]
  change (readRows (rows.map writeRow ++ [[]])).map _ = _
  rw [readRows_writeRows fun row hrow => (hrows row hrow).1]
  rfl

end Table
