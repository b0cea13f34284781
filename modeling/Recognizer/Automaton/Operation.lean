import Recognizer.Automaton.Completion
import Recognizer.Automaton.Elimination
import Recognizer.Automaton.Union

/-!
# Operations as data

The operations that change an automaton, as values, so that sequences of them can be spoken of. What
an operation returns besides the changed automaton is left out here.

A failed operation gives no automaton, and the caller keeps the one it had (`after`).
-/

namespace Recognizer

/-- An operation that changes an automaton, with its arguments. -/
inductive Operation where
  | insertVertex (q : Vertex)
  | addFreshVertex
  | markFinish (q : Vertex)
  | unmarkFinish (q : Vertex)
  | connect (t : Transition Vertex)
  | disconnect (t : Transition Vertex)
  | importAlong (B : Automaton) (f : Vertex → Vertex)
  | importShifted (B : Automaton) (offset : Vertex)
  | importUnder (B : Automaton) (policy : ImportPolicy)
  | eliminateEpsilon
  | totalize
  | totalizeOver (characters : Alphabet)

namespace Operation

/-- The changed automaton. -/
def perform (A : Automaton) : Operation → Except GraphError Automaton
  | insertVertex q => .ok (A.insertVertex q)
  | addFreshVertex => A.addFreshVertex.map Prod.snd
  | markFinish q => (A.markFinish q).map Prod.snd
  | unmarkFinish q => A.unmarkFinish q
  | connect t => (A.connect t).map Prod.snd
  | disconnect t => A.disconnect t
  | importAlong B f => .ok (A.importAlong B f)
  | importShifted B offset => A.importShifted B offset
  | importUnder B policy => (A.importUnder B policy).map Prod.snd
  | eliminateEpsilon => .ok A.eliminateEpsilon
  | totalize => A.totalize.map Prod.snd
  | totalizeOver characters => (A.totalizeOver characters).map Prod.snd

/-- The automaton that the caller has afterwards. -/
def after (A : Automaton) (op : Operation) : Automaton :=
  match op.perform A with
  | .ok B => B
  | .error _ => A

/-- The automaton that is imported, if any. -/
def imported? : Operation → Option Automaton
  | importAlong B _ | importShifted B _ | importUnder B _ => some B
  | _ => none

end Operation

end Recognizer
