import Recognizer.Automaton.SubsetAutomaton

/-!
# The subset construction, expansion by expansion

The same construction as it proceeds. A set gets a number when it is first met, and its number joins
the end of a queue; each expansion takes the first number off the queue, notes whether the set is a
finish, and follows its moves. What the expansions find out is kept in lists, and the automaton is
put together when the queue is empty.

Nothing bounds the number of expansions beforehand, so an exploration is given by its state after
each number of them, as long as there is one.
-/

namespace Recognizer

open Std

/-- Sets are compared by their members in ascending order. -/
instance : Ord VertexSet where
  compare states states' := compare states.toList states'.toList

instance : TransOrd VertexSet where
  eq_swap {states states'} := by
    change compare states.toList states'.toList = (compare states'.toList states.toList).swap
    exact OrientedCmp.eq_swap
  isLE_trans {states states' states''} hle hle' := by
    change (compare states.toList states''.toList).isLE = true
    exact TransCmp.isLE_trans hle hle'

instance : LawfulEqOrd VertexSet where
  compare_self {states} := by
    change compare states.toList states.toList = .eq
    exact ReflCmp.compare_self
  eq_of_compare h := ExtTreeSet.toList_inj.1 (LawfulEqCmp.eq_of_compare h)

/-- The sets met so far, in the order of their numbers, and their numbers. -/
structure SetTable where
  numbers : ExtTreeMap VertexSet Vertex := ∅
  sets : List VertexSet := []

namespace SetTable

/-- The table with one more set, numbered by its place. -/
def append (table : SetTable) (states : VertexSet) : SetTable :=
  { numbers := table.numbers.insert states (Automaton.vertexAt table.sets.length)
    sets := table.sets ++ [states] }

/-- The number of a set, whether it is new, and the table with the set. -/
def number (table : SetTable) (states : VertexSet) : Vertex × Bool × SetTable :=
  match table.numbers[states]? with
  | some q => (q, false, table)
  | none => (Automaton.vertexAt table.sets.length, true, table.append states)

end SetTable

/-- How far a subset construction has come. -/
structure Exploration where
  /-- The number of the first set. -/
  start : Vertex
  table : SetTable
  /-- The numbers of the sets that are still to be expanded. -/
  queue : List Vertex
  transitions : List (Transition Vertex)
  finishes : List Vertex
  /-- The numbers that have been taken off the queue, in order. -/
  expanded : List Vertex

namespace Exploration

/-- Before the first expansion, only the closure of the start is known. -/
def initial (A : Automaton) : Exploration :=
  let (q, _, table) := SetTable.number {} (A.closure A.start)
  { start := q, table, queue := [q], transitions := [], finishes := [], expanded := [] }

/-- Follow a move of the set numbered `q`. -/
def follow (q : Vertex) (E : Exploration) (move : Char × VertexSet) : Exploration :=
  let (r, isNew, table) := E.table.number move.2
  { E with
    table
    queue := if isNew then E.queue ++ [r] else E.queue
    transitions := E.transitions ++ [⟨q, some move.1, r⟩] }

/-- Begin to expand the set `states` numbered `q`, which leaves `rest` in the queue. -/
def visit (A : Automaton) (E : Exploration) (q : Vertex) (rest : List Vertex)
    (states : VertexSet) : Exploration :=
  { E with
    queue := rest
    finishes := if states.toList.any A.isFinish then E.finishes ++ [q] else E.finishes
    expanded := E.expanded ++ [q] }

/-- Take the first number off the queue and expand its set. Nothing follows an empty queue, nor could
a number be expanded that no set has. -/
def next? (A : Automaton) (E : Exploration) : Option Exploration :=
  match E.queue with
  | [] => none
  | q :: rest => E.table.sets[q.toNat]?.map fun states =>
    (A.moves states).toList.foldl (follow q) (visit A E q rest states)

/-- The state after `n` expansions, if there are so many. -/
def after? (A : Automaton) : Nat → Option Exploration
  | 0 => some (initial A)
  | n + 1 => (after? A n).bind (next? A)

/-- Put the automaton together. -/
def toSubsetAutomaton (E : Exploration) : SubsetAutomaton :=
  let vertices := (List.range' 1 (E.table.sets.length - 1)).foldl
    (fun D i => D.insertVertex (Automaton.vertexAt i)) (Automaton.singleton E.start)
  let linked := E.transitions.foldl Automaton.insertTransition vertices
  { subsets := E.table.sets, automaton := { linked with finishes := ExtTreeSet.ofList E.finishes } }

end Exploration

end Recognizer
