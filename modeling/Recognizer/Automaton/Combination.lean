import Recognizer.Automaton.Union

/-!
# Combining automata along silent steps

The building blocks for recognizers of regular expressions: an automaton for one symbol, one
automaton after another, and a branch from the start of an automaton through a second one to a
chosen exit. Each imported part keeps its shape under identifiers of its own, has exactly one
finish, and gives up that finish where the path goes on.
-/

namespace Recognizer

namespace Automaton

/-- Add a silent step between two vertices. -/
def connectSilently (A : Automaton) (source target : Vertex) : Except GraphError Automaton := do
  let (_, linked) ← A.connect ⟨source, none, target⟩
  return linked

/-- A start and a separate finish without any transition, together with the finish. -/
def twoEnds : Except GraphError (Vertex × Automaton) := do
  let (finish, A) ← (singleton 0).addFreshVertex
  let (_, A) ← A.markFinish finish
  return (finish, A)

/-- The automaton whose only path is one step on `symbol`. -/
def ofSymbol (symbol : Symbol) : Except GraphError Automaton := do
  let (finish, A) ← twoEnds
  let (_, A) ← A.connect ⟨A.start, symbol, finish⟩
  return A

/-- Continue at the finish of `A` with `B`. -/
def followedBy (A B : Automaton) : Except GraphError Automaton := do
  let finish ← A.uniqueFinish
  let (offset, joined) ← A.importUnder B .disjoint
  let opened ← joined.unmarkFinish finish
  opened.connectSilently finish (← Vertex.shift B.start offset)

/-- Open a way from the start of `A` through `B` to `exit`. -/
def addBranch (A B : Automaton) (exit : Vertex) : Except GraphError Automaton := do
  let finish ← B.uniqueFinish
  let (offset, joined) ← A.importUnder B .disjoint
  let entered ← joined.connectSilently A.start (← Vertex.shift B.start offset)
  let last ← Vertex.shift finish offset
  let opened ← entered.unmarkFinish last
  opened.connectSilently last exit

end Automaton

end Recognizer
