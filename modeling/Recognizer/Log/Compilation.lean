import Recognizer.Log.Event
import Recognizer.Compiler

/-!
# The log of each stage

The stages are plain functions; what one reports on its way is a function of what it was given and
what it returned. The parts of an expression are reported after their own parts, left before right,
vertices in ascending order, and subsets in the order of their numbers.
-/

namespace Recognizer

/-- The reports of the parts of an expression as they are built. -/
def Expression.buildLog : Expression → List Event
  | atom symbol => [.built (atom symbol) (atom symbol).vertexCount]
  | seq l r => l.buildLog ++ r.buildLog ++ [.built (seq l r) (seq l r).vertexCount]
  | alt l r => l.buildLog ++ r.buildLog ++ [.built (alt l r) (alt l r).vertexCount]
  | star e => e.buildLog ++ [.built (star e) (star e).vertexCount]

namespace Automaton

/-- The summary of the construction of `A`. -/
def constructionSummary (A : Automaton) : Event :=
  .constructed A.size A.transitionCount

/-- The reports of eliminating the silent steps of `A`. -/
def eliminationLog (A : Automaton) : List Event :=
  A.vertices.map (fun q => .closed q (A.closure q)) ++
    [.eliminated A.newFinishes.length A.copiedTransitions.length]

/-- The reports of making `A` deterministic with the result `D`. -/
def determinizationLog (A : Automaton) (D : SubsetAutomaton) : List Event :=
  D.subsets.zipIdx.map (fun (states, i) => .expanding i states) ++
    [.determinized A.size D.automaton.size]

/-- The report of completing `A` over an alphabet with the result `sink`. -/
def completionLog (A : Automaton) (characters : Alphabet) (sink : Option Vertex) : List Event :=
  sink.toList.map (.completed (A.missingMoves characters).length)

end Automaton

/-- The reports of compiling `e` with the result `compilation`. -/
def Compiler.log (C : Compiler) (e : Expression) (compilation : Compilation) : List Event :=
  let D := compilation.determinized
  e.buildLog ++ [compilation.constructed.constructionSummary] ++
    compilation.constructed.eliminationLog ++ compilation.epsilonFree.determinizationLog D ++
    D.automaton.completionLog (C.completionAlphabet D) compilation.sink

end Recognizer
