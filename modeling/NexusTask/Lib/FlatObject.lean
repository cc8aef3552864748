import NexusTask.Lib.Decimal

/-!
# Objects of numbers

An object is written between braces, with a comma after each member but the last: a name in quotes,
a colon and a natural number. Spaces and newlines may stand between any two tokens. The reader scans
the text into tokens first. `Scans` says of a piece of text which tokens it amounts to wherever it
stands, and a text is read piece by piece.
-/

set_option autoImplicit false

namespace FlatObject

/-! ## Reading -/

inductive Token
  | leftBrace | rightBrace | colon | comma
  | text (s : List Char)
  | number (n : Nat)
  deriving DecidableEq

def isSpace (c : Char) : Bool := c == ' ' || c == '\n' || c == '\t' || c == '\r'

/-- The tokens of one character. -/
def mark (c : Char) : Option Token :=
  if c = '\x7b' then some .leftBrace
  else if c = '\x7d' then some .rightBrace
  else if c = ':' then some .colon
  else if c = ',' then some .comma
  else none

/-- What the scanner is in the middle of, with what it has read of it, the last character first. -/
inductive Mode
  | between
  | inText (s : List Char)
  | inNumber (n : Nat)

/-- A text with escapes in it is refused. -/
def scan : Mode → List Char → Option (List Token)
  | .between, [] => some []
  | .inText _, [] => none
  | .inNumber n, [] => some [.number n]
  | .between, c :: s =>
      if isSpace c then scan .between s
      else if c = '"' then scan (.inText []) s
      else if c.isDigit then scan (.inNumber (Nat.ofDigitChars 10 [c] 0)) s
      else match mark c with
        | some t => (scan .between s).map (t :: ·)
        | none => none
  | .inText r, c :: s =>
      if c = '"' then (scan .between s).map (.text r.reverse :: ·)
      else if c = '\\' then none
      else scan (.inText (c :: r)) s
  | .inNumber n, c :: s =>
      if c.isDigit then scan (.inNumber (Nat.ofDigitChars 10 [c] n)) s
      else if isSpace c then (scan .between s).map (.number n :: ·)
      else match mark c with
        | some t => (scan .between s).map fun ts => .number n :: t :: ts
        | none => none

/-- The members, up to the closing brace. -/
def members : List Token → Option (List (List Char × Nat))
  | [.text name, .colon, .number n, .rightBrace] => some [(name, n)]
  | .text name :: .colon :: .number n :: .comma :: ts => (members ts).map ((name, n) :: ·)
  | _ => none

def object : List Token → Option (List (List Char × Nat))
  | [.leftBrace, .rightBrace] => some []
  | .leftBrace :: ts => members ts
  | _ => none

def read (s : List Char) : Option (List (List Char × Nat)) := (scan .between s).bind object

/-! ## Scanning -/

/-- Wherever the text stands, it is scanned as the tokens. -/
def Scans (s : List Char) (ts : List Token) : Prop :=
  ∀ rest, scan .between (s ++ rest) = (scan .between rest).map (ts ++ ·)

namespace Scans

variable {s s' : List Char} {ts ts' : List Token} {c : Char}

theorem nil : Scans [] [] := by
  intro rest
  simp

theorem append (h : Scans s ts) (h' : Scans s' ts') : Scans (s ++ s') (ts ++ ts') := by
  intro rest
  rw [List.append_assoc, h, h', Option.map_map]
  congr 1
  funext l
  exact (List.append_assoc ts ts' l).symm

theorem scan_eq (h : Scans s ts) : scan .between s = some ts := by
  have hs := h []
  rw [List.append_nil] at hs
  rw [hs]
  simp [scan]

theorem space (hc : isSpace c = true) (h : Scans s ts) : Scans (c :: s) ts := by
  intro rest
  rw [List.cons_append, scan, if_pos hc, h]

theorem leftBrace : Scans ['\x7b'] [.leftBrace] := by
  intro rest
  rfl

theorem rightBrace : Scans ['\x7d'] [.rightBrace] := by
  intro rest
  rfl

theorem colon : Scans [':'] [.colon] := by
  intro rest
  rfl

/-- The name is read to its closing quote. -/
theorem text {name : List Char} (hquote : '"' ∉ name) (hescape : '\\' ∉ name) :
    Scans ('"' :: (name ++ ['"'])) [.text name] := by
  have hread : ∀ (r rest : List Char), scan (.inText r) (name ++ '"' :: rest)
      = (scan .between rest).map (.text (r.reverse ++ name) :: ·) := by
    induction name with
    | nil =>
      intro r rest
      rw [List.nil_append, scan, if_pos rfl, List.append_nil]
    | cons c name ih =>
      intro r rest
      have hc : c ≠ '"' := fun heq => hquote (heq ▸ List.mem_cons_self)
      have hc' : c ≠ '\\' := fun heq => hescape (heq ▸ List.mem_cons_self)
      rw [List.cons_append, scan, if_neg hc, if_neg hc',
        ih (fun h => hquote (List.mem_cons_of_mem _ h)) fun h => hescape (List.mem_cons_of_mem _ h),
        List.reverse_cons, List.append_assoc, List.singleton_append]
  intro rest
  rw [List.cons_append, List.append_assoc, List.singleton_append, scan, if_neg (by decide),
    if_pos rfl, hread]
  rfl

theorem digits {digits : List Char} (h : ∀ c ∈ digits, c.isDigit = true) (n : Nat)
    (rest : List Char) :
    scan (.inNumber n) (digits ++ rest)
      = scan (.inNumber (Nat.ofDigitChars 10 digits n)) rest := by
  induction digits generalizing n with
  | nil => rfl
  | cons c digits ih =>
    rw [List.cons_append, scan, if_pos (h c List.mem_cons_self),
      ih fun d hd => h d (List.mem_cons_of_mem _ hd)]
    rfl

theorem space_not_digit (hc : isSpace c = true) : c.isDigit = false := by
  unfold isSpace at hc
  simp only [Bool.or_eq_true, beq_iff_eq] at hc
  rcases hc with ((rfl | rfl) | rfl) | rfl <;> rfl

/-- A number is read to the first character that is not a digit. -/
theorem scan_number (n : Nat) (rest : List Char) :
    scan .between (Nat.toDigits 10 n ++ rest) = scan (.inNumber n) rest := by
  have h := Decimal.digits_toDigits n
  have hvalue := Nat.ofDigitChars_ten_toDigits (n := n)
  cases hdigits : Nat.toDigits 10 n with
  | nil => exact absurd hdigits h.ne_nil
  | cons c s =>
    rw [hdigits] at h hvalue
    have hc := h.digit c List.mem_cons_self
    have hspace : isSpace c = false := by
      cases hs : isSpace c with
      | false => rfl
      | true => exact absurd ((space_not_digit hs).symm.trans hc) (by simp)
    have hquote : c ≠ '"' := by
      rintro rfl
      exact absurd hc (by decide)
    rw [List.cons_append, scan, if_neg (by simp [hspace]), if_neg hquote, if_pos hc,
      digits fun d hd => h.digit d (List.mem_cons_of_mem _ hd)]
    exact congrArg (fun k => scan (.inNumber k) rest) hvalue

theorem number_comma (n : Nat) : Scans (Nat.toDigits 10 n ++ [',']) [.number n, .comma] := by
  intro rest
  rw [List.append_assoc, scan_number]
  rfl

theorem number_newline (n : Nat) : Scans (Nat.toDigits 10 n ++ ['\n']) [.number n] := by
  intro rest
  rw [List.append_assoc, scan_number]
  rfl

end Scans

/-! ## Writing -/

/-- A member on a line of its own, indented by two spaces, up to its number. -/
def writeMember (name : List Char) (n : Nat) : List Char :=
  ' ' :: ' ' :: '"' :: (name ++ ['"']) ++ ':' :: ' ' :: Nat.toDigits 10 n

def writeMembers : List (List Char × Nat) → List Char
  | [] => []
  | [(name, n)] => writeMember name n ++ ['\n']
  | (name, n) :: p :: fields => writeMember name n ++ ',' :: '\n' :: writeMembers (p :: fields)

def write (fields : List (List Char × Nat)) : List Char :=
  '\x7b' :: '\n' :: writeMembers fields ++ ['\x7d']

/-- A name that needs no escapes. -/
structure Plain (name : List Char) : Prop where
  quote : '"' ∉ name
  escape : '\\' ∉ name

/-- The tokens of some members, the last of them not followed by a comma. -/
def tokens : List (List Char × Nat) → List Token
  | [] => []
  | [(name, n)] => [.text name, .colon, .number n]
  | (name, n) :: p :: fields =>
      .text name :: .colon :: .number n :: .comma :: tokens (p :: fields)

theorem scans_member {name : List Char} {n : Nat} {last : List Char} {ts : List Token}
    (h : Plain name) (hlast : Scans (Nat.toDigits 10 n ++ last) ts) :
    Scans (writeMember name n ++ last) (.text name :: .colon :: ts) := by
  have hname : Scans (' ' :: ' ' :: '"' :: (name ++ ['"'])) [.text name] :=
    .space rfl (.space rfl (.text h.quote h.escape))
  have hnumber := Scans.colon.append (hlast.space (c := ' ') rfl)
  have hline := hname.append hnumber
  simpa [writeMember] using hline

theorem scans_members {fields : List (List Char × Nat)} (h : ∀ p ∈ fields, Plain p.1) :
    Scans (writeMembers fields) (tokens fields) := by
  induction fields with
  | nil => exact .nil
  | cons p fields ih =>
    obtain ⟨name, n⟩ := p
    have hname : Plain name := h _ List.mem_cons_self
    cases fields with
    | nil => exact scans_member hname (.number_newline n)
    | cons q fields =>
      have hcomma := scans_member hname (.number_comma n)
      have hrest := (ih fun p hp => h p (List.mem_cons_of_mem _ hp)).space (c := '\n') rfl
      have hline := hcomma.append hrest
      rw [List.append_assoc] at hline
      exact hline

theorem members_tokens {fields : List (List Char × Nat)} (h : fields ≠ []) :
    members (tokens fields ++ [.rightBrace]) = some fields := by
  induction fields with
  | nil => exact absurd rfl h
  | cons p fields ih =>
    obtain ⟨name, n⟩ := p
    cases fields with
    | nil => rfl
    | cons q fields =>
      change (members (tokens (q :: fields) ++ [.rightBrace])).map ((name, n) :: ·) = _
      rw [ih (List.cons_ne_nil q fields)]
      rfl

theorem object_of_members {ts : List Token} {fields : List (List Char × Nat)}
    (h : members ts = some fields) : object (.leftBrace :: ts) = some fields := by
  unfold object
  split
  next heq =>
    obtain rfl : ts = [.rightBrace] := (List.cons.inj heq).2
    exact absurd h (by simp [members])
  next heq =>
    obtain rfl := (List.cons.inj heq).2
    exact h
  next hnot => exact absurd rfl (hnot ts)

/-- **What is written is read back.** -/
theorem read_write {fields : List (List Char × Nat)} (h : ∀ p ∈ fields, Plain p.1) :
    read (write fields) = some fields := by
  have hscan : Scans (write fields) (.leftBrace :: (tokens fields ++ [.rightBrace])) :=
    Scans.leftBrace.append (((scans_members h).append .rightBrace).space (c := '\n') rfl)
  unfold read
  rw [hscan.scan_eq, Option.bind_some]
  by_cases hfields : fields = []
  · subst hfields
    rfl
  · exact object_of_members (members_tokens hfields)

end FlatObject
