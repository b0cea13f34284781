import Recognizer.Automaton.Closure
import Recognizer.Automaton.Transitions

/-!
# Elimination of silent steps

Every vertex receives the transitions on characters of all vertices in its closure, and becomes a
finish if its closure holds one. After that the silent steps are dropped.

What is to be added is listed first, from the automaton as it was given, so no closure and no copy
ever sees a change made for another vertex.
-/

namespace Recognizer

open Std

namespace Automaton

/-- The vertices that are not finishes but reach one by silent steps. -/
def newFinishes (A : Automaton) : List Vertex :=
  A.vertices.filter fun q => !A.isFinish q && (A.closure q).toList.any A.isFinish

/-- The transitions on characters that `q` takes over from the other vertices of its closure. -/
def inheritedTransitions (A : Automaton) (q : Vertex) : List (Transition Vertex) :=
  ((A.closure q).toList.filter (· != q)).flatMap fun r =>
    (Outgoing.transitions (A.outgoing[r]?.getD ∅) q).filter (·.symbol.isSome)

/-- The transitions that all vertices take over; one that several vertices pass on is repeated. -/
def copiedTransitions (A : Automaton) : List (Transition Vertex) :=
  A.vertices.flatMap A.inheritedTransitions

/-- The automaton without its silent steps. -/
def eraseEpsilon (A : Automaton) : Automaton :=
  { A with outgoing := A.outgoing.map fun _ out => out.erase none }

/-- The automaton with every silent step replaced by what it leads to. -/
def eliminateEpsilon (A : Automaton) : Automaton :=
  let extended := A.copiedTransitions.foldl insertTransition A
  { extended with finishes := extended.finishes.insertMany A.newFinishes }.eraseEpsilon

/-- No silent step is left. -/
theorem isEpsilonFree_eraseEpsilon (A : Automaton) : A.eraseEpsilon.isEpsilonFree = true := by
  simp only [isEpsilonFree, tables, eraseEpsilon, ExtTreeMap.toList_map, List.map_map,
    List.all_eq_true, List.mem_map, Function.comp]
  rintro out ⟨entry, _, rfl⟩
  simp

end Automaton

end Recognizer
