import Recognizer.Automaton.Completion
import Recognizer.Automaton.Elimination
import Recognizer.Automaton.SubsetAutomaton
import Recognizer.Expression.Construction

/-!
# From expressions to complete deterministic automata

A compiler takes an expression through four stages: construction, elimination of silent steps,
subset construction and, unless it is switched off, completion. The completed automaton is total
over the characters that it uses and those of the configured alphabet. The configuration is made by
settings, one after the other; without any, all stages are run and there is no further character.

All stages are kept, so a caller can inspect what each of them did.
-/

namespace Recognizer

open Std

/-- How expressions are compiled. -/
structure Compiler where
  /-- Characters that the completed automaton reads besides those of the expression. -/
  alphabet : Alphabet := ∅
  /-- Whether the last stage is run. -/
  completes : Bool := true

/-- A change to how expressions are compiled. -/
inductive Setting where
  /-- The last stage reads these characters, too. -/
  | reading (characters : List Char)
  /-- The last stage is run, or it is left out. -/
  | completing (completes : Bool)

/-- A compiled expression, with what each stage produced. -/
structure Compilation where
  /-- The automaton of the expression, with silent steps. -/
  constructed : Automaton
  /-- The same without silent steps. -/
  epsilonFree : Automaton
  /-- The deterministic automaton, which may be partial. -/
  determinized : SubsetAutomaton
  /-- The complete automaton, if the last stage was run. -/
  completed : Option Automaton
  /-- The sink added by the last stage, if any. -/
  sink : Option Vertex

/-- The automaton of the last stage that was run. -/
def Compilation.result (compilation : Compilation) : Automaton :=
  compilation.completed.getD compilation.determinized.automaton

namespace Compiler

/-- Add characters to the alphabet of the last stage. -/
def reading (C : Compiler) (characters : List Char) : Compiler :=
  { C with alphabet := C.alphabet.insertMany characters }

/-- Run the last stage, or leave it out. -/
def completing (C : Compiler) (completes : Bool) : Compiler :=
  { C with completes }

/-- Make a change. -/
def set (C : Compiler) : Setting → Compiler
  | .reading characters => C.reading characters
  | .completing completes => C.completing completes

/-- The characters over which the last stage makes `D` total. -/
def completionAlphabet (C : Compiler) (D : SubsetAutomaton) : Alphabet :=
  D.automaton.alphabet ∪ C.alphabet

/-- Compile an expression, keeping all stages. -/
def run (C : Compiler) (e : Expression) : Except GraphError Compilation := do
  let constructed ← e.toAutomaton
  let epsilonFree := constructed.eliminateEpsilon
  let determinized := epsilonFree.determinize
  if C.completes then
    let (sink, completed) ← determinized.automaton.totalizeOver (C.completionAlphabet determinized)
    return { constructed, epsilonFree, determinized, completed := some completed, sink }
  else
    return { constructed, epsilonFree, determinized, completed := none, sink := none }

end Compiler

/-- The complete deterministic automaton of an expression. -/
def Expression.compile (e : Expression) : Except GraphError Automaton := do
  let compilation ← Compiler.run {} e
  return compilation.result

end Recognizer
