import Recognizer.Document.Failure
import Recognizer.NamedAutomaton.Basic
import Recognizer.Text.Numeral
import Recognizer.Text.WhiteSpace

/-!
# Writing documents

The document of an automaton lists finishes and transitions in ascending order, so equal automata
have equal documents. A vertex that is neither the start nor a finish nor an end of a transition is
not mentioned.

`document` always gives a text, even if a symbol or a label spoils its lines; `write` refuses those.
-/

namespace Recognizer

open Text

namespace Document

/-- The line of a transition between named vertices. -/
def transitionLine (t : Transition (List Char)) : List Char :=
  t.source ++ ' ' :: t.target ++ t.symbol.toList.flatMap fun c => [' ', c]

/-- The document with the given parts. -/
def layout (start : List Char) (finishes : List (List Char))
    (transitions : List (Transition (List Char))) : List Char :=
  (start :: [] :: finishes ++ [] :: transitions.map transitionLine).flatMap (· ++ ['\n'])

/-- Whether `c` would break the line that it stands on. -/
def isLineBreak (c : Char) : Bool :=
  c == '\n' || c == '\r'

/-- Whether a label can stand on a line without being taken apart. -/
def isWritableLabel (label : String) : Bool :=
  !label.toList.isEmpty && !label.toList.any isWhiteSpace

end Document

open Document

namespace Automaton

/-- The document of an automaton, with vertices as numerals. -/
def document (A : Automaton) : List Char :=
  layout (Numeral.write A.start) (A.finishes.toList.map Numeral.write)
    (A.transitions.map (Transition.rename Numeral.write))

instance : ToString Automaton where
  toString A := String.ofList A.document

/-- The first symbol that would break its line. -/
def unwritableSymbol? (A : Automaton) : Option Char :=
  A.transitions.findSome? fun t => t.symbol.filter isLineBreak

/-- The document of an automaton, if it can be read back. -/
def write (A : Automaton) : Except TextError String :=
  match A.unwritableSymbol? with
  | some c => .error (.unwritableSymbol c)
  | none => .ok (toString A)

end Automaton

namespace NamedAutomaton

/-- The document of an automaton, with vertices as labels. -/
def document (L : NamedAutomaton) : List Char :=
  layout L.startName.toList (L.finishNames.toList.map String.toList)
    (L.transitionsByName.toList.map (Transition.rename String.toList))

instance : ToString NamedAutomaton where
  toString L := String.ofList L.document

/-- The first name, by ascending vertex, that would be taken apart. -/
def unwritableName? (L : NamedAutomaton) : Option String :=
  (L.automaton.vertices.map L.name).find? fun label => !isWritableLabel label

/-- The document of an automaton with named vertices, if it can be read back. -/
def write (L : NamedAutomaton) : Except TextError String :=
  match L.unwritableName?, L.automaton.unwritableSymbol? with
  | some label, _ => .error (.unwritableLabel label)
  | none, some c => .error (.unwritableSymbol c)
  | none, none => .ok (toString L)

end NamedAutomaton

end Recognizer
