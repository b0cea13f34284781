import Recognizer.Document.Failure
import Recognizer.Text.Lines

/-!
# The outline of a document

A document states the start of an automaton on its first line, then after an empty line its
finishes, one on each line, and after a further empty line its transitions. A transition is written
as its source, its target and, unless the step is silent, its symbol, with single spaces between
them. The symbol is all that follows the second space, so it may be a space itself.

The outline gives what each line states, or why it states nothing, without deciding what a name of a
vertex is. Lines are judged one by one, so the first failure in the list is that of the first bad
line.
-/

namespace Recognizer

open Text

/-- What a line of a document states about vertices that it names. -/
inductive Statement where
  | finish (name : List Char)
  | transition (t : Transition (List Char))
deriving DecidableEq

/-- A line together with its number. -/
abbrev NumberedLine := Nat × List Char

/-- What a document states: the name of the start, and the statements of all further lines. -/
structure Outline where
  /-- The number of the line that names the start. -/
  startLine : Nat
  /-- The name of the start. -/
  start : List Char
  /-- The numbers of all further lines, with what each states or why it fails. -/
  body : List (Nat × Except TextError Statement)

namespace Outline

/-- The field of a line that has only one. -/
def onlyField (line : NumberedLine) : Except TextError (List Char) :=
  match fields line.2 with
  | [field] => .ok field
  | several => .error (.wrongFields line.1 .vertex several.length)

/-- The symbol that a text of one character stands for. -/
def readSymbol (number : Nat) (text : List Char) : Except TextError Symbol :=
  match text with
  | [c] => .ok (some c)
  | _ => .error (.badSymbol number (String.ofList text))

/-- What a line of the finish section states. -/
def readFinish (line : NumberedLine) : Except TextError Statement := do
  return .finish (← onlyField line)

/-- What a line of the transition section states. -/
def readTransition (line : NumberedLine) : Except TextError Statement :=
  match cutAtSpace line.2 with
  | (_, none) => .error (.wrongFields line.1 .transition 1)
  | (source, some rest) =>
    match cutAtSpace rest with
    | (target, none) => .ok (.transition ⟨source, none, target⟩)
    | (target, some text) => do return .transition ⟨source, ← readSymbol line.1 text, target⟩

/-- The lines of the finish section: those before the first empty line. -/
def finishLines (lines : List NumberedLine) : List NumberedLine :=
  lines.takeWhile fun line => !line.2.isEmpty

/-- The lines of the transition section: those after the first empty line that are not blank. -/
def transitionLines (lines : List NumberedLine) : List NumberedLine :=
  (lines.dropWhile fun line => !line.2.isEmpty).tail.filter fun line => !isBlank line.2

/-- What the lines after the start state. -/
def readBody : List NumberedLine → List (Nat × Except TextError Statement)
  | [] => []
  | (number, separator) :: rest =>
    if separator.isEmpty then
      (finishLines rest).map (fun line => (line.1, readFinish line)) ++
        (transitionLines rest).map (fun line => (line.1, readTransition line))
    else [(number, .error (.notEmpty number))]

/-- The lines of a text, numbered from one. -/
def numberedLines (text : List Char) : List NumberedLine :=
  (lines text).zipIdx.map fun (line, i) => (i + 1, line)

/-- The outline of a document; there is none if the first line does not name the start. -/
def ofText (text : List Char) : Except TextError Outline :=
  match numberedLines text with
  | [] => .error .noStart
  | first :: rest =>
    if isBlank first.2 then .error .noStart
    else do return { startLine := first.1, start := ← onlyField first, body := readBody rest }

end Outline

end Recognizer
