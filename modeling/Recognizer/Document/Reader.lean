import Recognizer.Document.Outline
import Recognizer.NamedAutomaton.Basic
import Recognizer.Text.Numeral

/-!
# Reading documents

The two meanings of an outline. In a numeric document the name of a vertex is its decimal numeral,
and any other name is a failure. In a labelled document every name is a label. Either way a vertex
enters the automaton when a line first mentions it.

Statements are taken in the order of their lines, so the failure reported is that of the first line
that breaks the format or names no vertex.
-/

namespace Recognizer

open Text

/-- The vertex that a field of the given line names. -/
def vertexOfNumeral (line : Nat) (name : List Char) : Except TextError Vertex :=
  match Numeral.read name with
  | some q => .ok q
  | none => .error (.badVertex line (String.ofList name))

namespace Automaton

/-- Add what a line of a numeric document states. -/
def addStatement (A : Automaton) (line : Nat) : Statement → Except TextError Automaton
  | .finish name => do
    let q ← vertexOfNumeral line name
    return (A.insertVertex q).insertFinish q
  | .transition t => do
    let source ← vertexOfNumeral line t.source
    let target ← vertexOfNumeral line t.target
    return ((A.insertVertex source).insertVertex target).insertTransition ⟨source, t.symbol, target⟩

/-- The automaton that an outline describes if names are numerals. -/
def ofOutline (outline : Outline) : Except TextError Automaton := do
  let start ← vertexOfNumeral outline.startLine outline.start
  outline.body.foldlM (fun A (line, statement) => do A.addStatement line (← statement))
    (singleton start)

/-- Read a numeric document. -/
def read (text : String) : Except TextError Automaton := do
  ofOutline (← Outline.ofText text.toList)

end Automaton

namespace NamedAutomaton

/-- Add what a line of a labelled document states. -/
def addStatement (L : NamedAutomaton) : Statement → NamedAutomaton
  | .finish name =>
    let (q, L) := L.vertex (String.ofList name)
    { L with automaton := L.automaton.insertFinish q }
  | .transition t =>
    let (source, L) := L.vertex (String.ofList t.source)
    let (target, L) := L.vertex (String.ofList t.target)
    { L with automaton := L.automaton.insertTransition ⟨source, t.symbol, target⟩ }

/-- The automaton that an outline describes if names are labels. -/
def ofOutline (outline : Outline) : Except TextError NamedAutomaton :=
  outline.body.foldlM (fun L (_, statement) => do return L.addStatement (← statement))
    (singleton (String.ofList outline.start))

/-- Read a labelled document. -/
def read (text : String) : Except TextError NamedAutomaton := do
  ofOutline (← Outline.ofText text.toList)

end NamedAutomaton

end Recognizer
