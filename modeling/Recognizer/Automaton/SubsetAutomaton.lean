import Recognizer.Automaton.Subsets

/-!
# The automaton of reachable subsets

The deterministic automaton whose vertices stand for the reachable sets of a source automaton. A
set is numbered by its place in the order of discovery, from zero for the closure of the start. The
result is partial: a character that leads nowhere gets no transition.
-/

namespace Recognizer

open Std

/-- A deterministic automaton, with the set of source vertices that each of its vertices, the
numbers from zero on, stands for. -/
structure SubsetAutomaton where
  automaton : Automaton
  subsets : List VertexSet
deriving DecidableEq

/-- The source vertices that `q` stands for. -/
def SubsetAutomaton.subset (D : SubsetAutomaton) (q : Vertex) : Option VertexSet :=
  D.subsets[q.toNat]?

namespace Automaton

/-- The vertex that stands at a position of the list of subsets. -/
def vertexAt (position : Nat) : Vertex :=
  UInt32.ofNat position

/-- The transitions between the listed subsets, where a subset is numbered by its position. -/
def subsetTransitions (A : Automaton) (subsets : List VertexSet) :
    List (Transition Vertex) :=
  subsets.zipIdx.flatMap fun (states, i) =>
    (A.moves states).toList.map fun (c, next) => ⟨vertexAt i, some c, vertexAt (subsets.idxOf next)⟩

/-- The positions of the listed subsets that hold a finish. -/
def subsetFinishes (A : Automaton) (subsets : List VertexSet) : List Vertex :=
  subsets.zipIdx.filterMap fun (states, i) =>
    if states.toList.any A.isFinish then some (vertexAt i) else none

/-- The deterministic automaton of all reachable subsets. -/
def determinize (A : Automaton) : SubsetAutomaton :=
  let subsets := A.reachableSubsets
  let vertices := (List.range subsets.length).foldl (fun D i => D.insertVertex (vertexAt i))
    (singleton (vertexAt 0))
  let linked := (A.subsetTransitions subsets).foldl insertTransition vertices
  { subsets, automaton := { linked with finishes := ExtTreeSet.ofList (A.subsetFinishes subsets) } }

end Automaton

end Recognizer
