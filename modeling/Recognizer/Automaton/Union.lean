import Recognizer.Automaton.Basic

/-!
# Importing one automaton into another

`importAlong` imports an automaton along a map of vertices: images that collide become one vertex,
whose target sets are merged symbol by symbol. The imported start becomes an ordinary vertex, so
the start of the receiver stays.

Shifting by a constant offset is the map that keeps vertices apart. The offset is checked against
the greatest imported vertex before anything is imported; an `ImportPolicy` chooses it.
-/

namespace Recognizer

open Std

/-- Merge the images under `f` of the targets in `other` into `out`, symbol by symbol. -/
def Outgoing.mergeImage (out other : Outgoing) (f : Vertex → Vertex) : Outgoing :=
  other.toList.foldl
    (fun merged entry => amend merged entry.1 (·.insertMany (entry.2.toList.map f))) out

/-- Whether an import identifies vertices with equal identifiers. -/
inductive ImportPolicy where
  /-- The imported vertices are renumbered past the greatest vertex of the receiver. -/
  | disjoint
  /-- Equal identifiers denote the same vertex. -/
  | shared
deriving DecidableEq, Repr

namespace Automaton

/-- Import `B` into `A`, sending each vertex `q` of `B` to `f q`. -/
def importAlong (A B : Automaton) (f : Vertex → Vertex) : Automaton :=
  { A with
    finishes := A.finishes.insertMany (B.finishes.toList.map f)
    outgoing := B.outgoing.toList.foldl
      (fun table entry => amend table (f entry.1) (Outgoing.mergeImage · entry.2 f)) A.outgoing }

/-- Import `B` into `A` with every vertex shifted by `offset`. -/
def importShifted (A B : Automaton) (offset : Vertex) : Except GraphError Automaton := do
  let _ ← Vertex.shift B.greatestVertex offset
  return A.importAlong B (· + offset)

/-- The offset that a policy asks for when importing into `A`. -/
def importOffset (A : Automaton) : ImportPolicy → Except GraphError Vertex
  | .disjoint => A.freshIdentifier
  | .shared => .ok 0

/-- Import `B` into `A` under the given policy, and return the offset of the imported vertices. -/
def importUnder (A B : Automaton) (policy : ImportPolicy) :
    Except GraphError (Vertex × Automaton) := do
  let offset ← A.importOffset policy
  return (offset, ← A.importShifted B offset)

end Automaton

end Recognizer
