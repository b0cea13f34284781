import Recognizer.Transition

/-!
# Vertices as decimal numerals

A vertex is written by its decimal digits. A reader is more liberal: it accepts leading zeros and a
plus sign, but nothing beyond the range of identifiers (`read_eq_some_iff`). What is written reads
back (`read_write`).
-/

namespace Recognizer.Text.Numeral

/-- The decimal digits of a vertex, without leading zeros. -/
def write (q : Vertex) : List Char :=
  Nat.toDigits 10 q.toNat

/-- The text after an optional plus sign. -/
def unsigned : List Char → List Char
  | '+' :: digits => digits
  | digits => digits

/-- The vertex written as a numeral, if the text is a numeral in range. -/
def read (text : List Char) : Option Vertex :=
  let digits := unsigned text
  if !digits.isEmpty && digits.all Char.isDigit then
    let value := Nat.ofDigitChars 10 digits 0
    if value < UInt32.size then some (UInt32.ofNat value) else none
  else none

/-- Digits, at least one, with the value of a vertex. -/
structure IsDecimal (digits : List Char) (q : Vertex) : Prop where
  ne_nil : digits ≠ []
  isDigit : ∀ c ∈ digits, c.isDigit = true
  value : Nat.ofDigitChars 10 digits 0 = q.toNat

/-- A text that stands for a vertex: its decimal digits, perhaps after a plus sign. -/
inductive IsNumeral : List Char → Vertex → Prop where
  | plain {digits : List Char} {q : Vertex} (h : IsDecimal digits q) : IsNumeral digits q
  | signed {digits : List Char} {q : Vertex} (h : IsDecimal digits q) : IsNumeral ('+' :: digits) q

/-- An unsigned decimal is a numeral. -/
theorem isDecimal_unsigned_iff {text : List Char} {q : Vertex} :
    IsDecimal (unsigned text) q ↔ IsNumeral text q := by
  constructor
  · intro h
    unfold unsigned at h
    split at h
    · exact .signed h
    · exact .plain h
  · intro h
    cases h with
    | signed h => exact h
    | plain h =>
      unfold unsigned
      split
      · exact absurd (h.isDigit '+' List.mem_cons_self) (by decide)
      · exact h

/-- The numerals are just the texts that are read. -/
theorem read_eq_some_iff {text : List Char} {q : Vertex} : read text = some q ↔ IsNumeral text q := by
  rw [← isDecimal_unsigned_iff, read]
  by_cases hdigits : unsigned text ≠ [] ∧ ∀ c ∈ unsigned text, c.isDigit = true
  · have hguard : (!(unsigned text).isEmpty && (unsigned text).all Char.isDigit) = true := by
      simpa using hdigits
    simp only [hguard, if_true]
    constructor
    · intro h
      split at h
      · next hrange =>
        cases h
        exact ⟨hdigits.1, hdigits.2, (UInt32.toNat_ofNat_of_lt' hrange).symm⟩
      · cases h
    · intro h
      rw [h.value, if_pos q.toNat_lt_size, UInt32.ofNat_toNat]
  · have hguard : (!(unsigned text).isEmpty && (unsigned text).all Char.isDigit) ≠ true := by
      simpa using hdigits
    simp only [if_neg hguard]
    exact iff_of_false nofun fun h => hdigits ⟨h.ne_nil, h.isDigit⟩

/-- The digits of a vertex are a numeral of it. -/
theorem isDecimal_write (q : Vertex) : IsDecimal (write q) q where
  ne_nil := Nat.toDigits_ne_nil
  isDigit _ hc := Nat.isDigit_of_mem_toDigits (by decide) (by decide) hc
  value := Nat.ofDigitChars_ten_toDigits

/-- Every vertex reads back from its digits. -/
theorem read_write (q : Vertex) : read (write q) = some q :=
  read_eq_some_iff.2 (.plain (isDecimal_write q))

/-- Distinct vertices have distinct numerals. -/
theorem write_inj {q r : Vertex} : write q = write r ↔ q = r := by
  constructor
  · intro h
    have hread := read_write q
    rw [h, read_write, Option.some.injEq] at hread
    exact hread.symm
  · exact congrArg write

end Recognizer.Text.Numeral
