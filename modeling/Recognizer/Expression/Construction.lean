import Recognizer.Automaton.Combination
import Recognizer.Expression.Basic

/-!
# From expressions to automata

Every operator of an expression is answered by one combination of automata, so the automaton grows
with the tree: it starts at vertex zero, has a single finish, and uses silent steps as glue. The
construction can fail only when the identifiers run out, and `vertexCount` says how many it needs.
-/

namespace Recognizer

namespace Expression

/-- An automaton for the words that the expression matches. -/
def toAutomaton : Expression → Except GraphError Automaton
  | atom symbol => Automaton.ofSymbol symbol
  | seq l r => do
    let A ← l.toAutomaton
    let B ← r.toAutomaton
    A.followedBy B
  | alt l r => do
    let (finish, A) ← Automaton.twoEnds
    let A ← A.addBranch (← l.toAutomaton) finish
    A.addBranch (← r.toAutomaton) finish
  | star e => do
    let (_, A) ← (Automaton.singleton 0).markFinish 0
    A.addBranch (← e.toAutomaton) A.start

/-- The number of vertices that the construction uses. -/
def vertexCount : Expression → Nat
  | atom _ => 2
  | seq l r => l.vertexCount + r.vertexCount
  | alt l r => l.vertexCount + r.vertexCount + 2
  | star e => e.vertexCount + 1

/-- The number of transitions that the construction makes. -/
def transitionCount : Expression → Nat
  | atom _ => 1
  | seq l r => l.transitionCount + r.transitionCount + 1
  | alt l r => l.transitionCount + r.transitionCount + 4
  | star e => e.transitionCount + 2

end Expression

end Recognizer
