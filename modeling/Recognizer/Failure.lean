import Recognizer.Transition

/-!
# Failures of graph operations

An operation on an automaton fails for one of five causes, each carrying the identifiers that make
its report precise. The wording of every report is fixed by `GraphError.message` alone.

Causes are grouped into kinds shared with the text format, so that a caller can react to a missing
item, a broken expectation, bad input or an exhausted identifier range without inspecting causes.
-/

namespace Recognizer

/-- What a caller has to know about a failure. -/
inductive FailureKind where
  | notFound
  | invariantViolation
  | malformedInput
  | overflow
deriving DecidableEq, Repr

/-- Why an operation on an automaton failed. -/
inductive GraphError where
  /-- The vertex is not in the automaton. -/
  | unknownVertex (vertex : Vertex)
  /-- The vertex is not a finish. -/
  | notFinish (vertex : Vertex)
  /-- The automaton has no such transition. -/
  | unknownTransition (transition : Transition Vertex)
  /-- There is no finish, or more than one. -/
  | notUniqueFinish (count : Nat)
  /-- The identifier plus the offset is not an identifier. -/
  | identifierOverflow (vertex offset : Vertex)
deriving DecidableEq

namespace GraphError

/-- The kind of failure that each cause belongs to. -/
def kind : GraphError → FailureKind
  | unknownVertex _ | notFinish _ | unknownTransition _ => .notFound
  | notUniqueFinish _ => .invariantViolation
  | identifierOverflow _ _ => .overflow

/-- A symbol inside a report: a quoted character, or the name of the silent symbol. -/
def quoteSymbol : Symbol → String
  | some c => "`" ++ c.toString ++ "`"
  | none => "epsilon"

/-- The text of a report. -/
def message : GraphError → String
  | unknownVertex q => s!"vertex {q} not found"
  | notFinish q => s!"vertex {q} is not a finish"
  | unknownTransition t =>
    s!"transition {t.source} -> {t.target} ({quoteSymbol t.symbol}) not found"
  | notUniqueFinish count => s!"number of finishes is {count} != 1"
  | identifierOverflow q offset => s!"vertex identifier overflow ({q} + {offset})"

end GraphError

end Recognizer
