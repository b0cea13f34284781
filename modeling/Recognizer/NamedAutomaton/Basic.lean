import Recognizer.Automaton.Transitions
import Recognizer.Automaton.Union
import Recognizer.NamedAutomaton.LabelTable
import Recognizer.Text.Numeral

/-!
# Automata with named vertices

An automaton together with a table of labels for its vertices. A vertex goes by its label, or by its
decimal number if it has none.

Two such automata count as equal when they agree under the names of their vertices, whatever
identifiers stand behind the names.
-/

namespace Recognizer

open Std

/-- An automaton with a table of labels. -/
structure NamedAutomaton where
  automaton : Automaton
  labels : LabelTable

namespace NamedAutomaton

/-- The automaton with one vertex, its start, of the given label. -/
def singleton (start : String) : NamedAutomaton :=
  let (q, labels) := (∅ : LabelTable).intern start
  { automaton := Automaton.singleton q, labels }

/-- The vertex of a label, which is added if necessary. -/
def vertex (L : NamedAutomaton) (label : String) : Vertex × NamedAutomaton :=
  let (q, labels) := L.labels.intern label
  (q, { automaton := L.automaton.insertVertex q, labels })

/-- The label of a vertex, or its decimal number if it has none. -/
def name (L : NamedAutomaton) (q : Vertex) : String :=
  (L.labels.labelOf? q).getD (String.ofList (Text.Numeral.write q))

/-- The name of the start. -/
def startName (L : NamedAutomaton) : String :=
  L.name L.automaton.start

/-- The names of all vertices. -/
def vertexNames (L : NamedAutomaton) : ExtTreeSet String :=
  ExtTreeSet.ofList (L.automaton.vertices.map L.name)

/-- The names of the finishes. -/
def finishNames (L : NamedAutomaton) : ExtTreeSet String :=
  ExtTreeSet.ofList (L.automaton.finishes.toList.map L.name)

/-- The transitions between named vertices. -/
def transitionsByName (L : NamedAutomaton) : ExtTreeSet (Transition String) :=
  ExtTreeSet.ofList (L.automaton.transitions.map (Transition.rename L.name))

/-- Whether two automata agree under the names of their vertices. -/
instance : BEq NamedAutomaton where
  beq L M :=
    L.startName == M.startName && L.vertexNames == M.vertexNames &&
      L.finishNames == M.finishNames && L.transitionsByName == M.transitionsByName

/-- Add a vertex for the name of each vertex of `M`, and list which one it is. -/
def insertNamesOf (L M : NamedAutomaton) : ExtTreeMap Vertex Vertex × NamedAutomaton :=
  M.automaton.vertices.foldl
    (fun (table, L) q =>
      let (r, L) := L.vertex (M.name q)
      (table.insert q r, L))
    (∅, L)

/-- Import `M` into `L`, identifying vertices of the same name. -/
def unionByName (L M : NamedAutomaton) : NamedAutomaton :=
  let (table, L) := L.insertNamesOf M
  { L with automaton := L.automaton.importAlong M.automaton fun q => table[q]?.getD q }

end NamedAutomaton

end Recognizer
