import Recognizer.Automaton.Closure

/-!
# The search for a closure, move by move

The same search as it proceeds. A move takes the top vertex off the stack. If it is new, it counts as
visited, and the targets of its silent steps are put on the stack in ascending order, except those
already visited. So a vertex may stand on the stack more than once; when it comes to the top again, it
is only taken off.

The search is given by its state after each number of moves, as long as there is a move.
-/

namespace Recognizer

open Std

/-- How far the search for a closure has come. -/
structure ClosureSearch where
  /-- The vertices still to be looked at, the top one first. -/
  stack : List Vertex
  visited : VertexSet

namespace ClosureSearch

/-- Before the first move nothing is visited, and the last of the given vertices is on top. -/
def initial (qs : List Vertex) : ClosureSearch :=
  { stack := qs.reverse, visited := ∅ }

/-- Visit the vertex `q`, which was on top of `rest`. It counts as visited before the targets of its
silent steps are put on the stack, so it is not put there itself. -/
def visit (A : Automaton) (S : ClosureSearch) (q : Vertex) (rest : List Vertex) : ClosureSearch :=
  let visited := S.visited.insert q
  { stack := ((A.epsilonSuccessors q).filter (· ∉ visited)).reverse ++ rest, visited }

/-- Take the top vertex off the stack, and visit it if it is new. Nothing follows an empty stack. -/
def next? (A : Automaton) (S : ClosureSearch) : Option ClosureSearch :=
  match S.stack with
  | [] => none
  | q :: rest =>
    if q ∈ S.visited then some { S with stack := rest } else some (visit A S q rest)

/-- The state after `n` moves from `S`, if there are so many. -/
def after? (A : Automaton) : Nat → ClosureSearch → Option ClosureSearch
  | 0, S => some S
  | n + 1, S => (next? A S).bind (after? A n)

end ClosureSearch

end Recognizer
