import Recognizer.Failure
import Recognizer.Text.Quoted

/-!
# Failures of reading and writing documents

A reader fails at the first line that breaks the format and reports its number, counted from one. A
writer fails on what the format has no form for: line breaks as symbols, and labels that are empty
or hold white space.
-/

namespace Recognizer

/-- What a line should have held. -/
inductive LineShape where
  | vertex
  | transition
deriving DecidableEq, Repr

/-- The shape as it stands in a report. -/
def LineShape.describe : LineShape → String
  | vertex => "a single vertex"
  | transition => "`<source> <target>[ <symbol>]`"

/-- Why a document could not be read or written. -/
inductive TextError where
  /-- The first line is absent or blank. -/
  | noStart
  /-- The start is not followed by an empty line. -/
  | notEmpty (line : Nat)
  /-- The line does not have the fields of its shape. -/
  | wrongFields (line : Nat) (expected : LineShape) (found : Nat)
  /-- The field is not the identifier of a vertex. -/
  | badVertex (line : Nat) (id : String)
  /-- The rest of the line is not a single character. -/
  | badSymbol (line : Nat) (symbol : String)
  /-- The character has no form in a document. -/
  | unwritableSymbol (symbol : Char)
  /-- The label has no form in a document. -/
  | unwritableLabel (label : String)
deriving DecidableEq

namespace TextError

/-- All failures of documents are of one kind. -/
def kind (_ : TextError) : FailureKind :=
  .malformedInput

/-- The text of a report. -/
def message : TextError → String
  | noStart => "missing start vertex"
  | notEmpty line => s!"line {line}: expected a blank line"
  | wrongFields line expected found =>
    s!"line {line}: expected " ++ expected.describe ++ s!", found {found} field(s)"
  | badVertex line id => s!"line {line}: invalid vertex `{id}`"
  | badSymbol line symbol => s!"line {line}: invalid symbol `{symbol}`"
  | unwritableSymbol c => "symbol " ++ Text.quoteChar c ++ " cannot be written"
  | unwritableLabel label => "label " ++ Text.quoteText label ++ " cannot be written"

end TextError

end Recognizer
