import Recognizer.Automaton.Basic
import Recognizer.Expression.Printer

/-!
# Events of the stages

What a stage reports while it runs: small steps at the level `trace`, and one summary for each stage
at the level `debug`. An event keeps the facts that it reports; `Event.message` alone fixes the
wording.
-/

namespace Recognizer

/-- How detailed an event is. -/
inductive Level where
  | trace
  | debug
deriving DecidableEq, Repr

/-- The name of a level in a record. -/
def Level.name : Level → String
  | trace => "TRACE"
  | debug => "DEBUG"

/-- Something that a stage reports. -/
inductive Event where
  /-- A part of the expression has been built. -/
  | built (part : Expression) (vertices : Nat)
  /-- The whole expression has been built. -/
  | constructed (vertices transitions : Nat)
  /-- The closure of a vertex has been computed. -/
  | closed (vertex : Vertex) (closure : VertexSet)
  /-- Silent steps have been eliminated. -/
  | eliminated (finishes transitions : Nat)
  /-- A subset is being expanded. -/
  | expanding (position : Nat) (states : VertexSet)
  /-- All subsets have been expanded. -/
  | determinized (before after : Nat)
  /-- Missing transitions now lead to the sink. -/
  | completed (missing : Nat) (sink : Vertex)

namespace Event

/-- How detailed the event is. -/
def level : Event → Level
  | built _ _ | closed _ _ | expanding _ _ => .trace
  | constructed _ _ | eliminated _ _ | determinized _ _ | completed _ _ => .debug

/-- A set in a message: the members between braces, separated by commas. -/
def listing (states : VertexSet) : String :=
  "\x7b" ++ ", ".intercalate (states.toList.map toString) ++ "\x7d"

/-- The text of the report. -/
def message : Event → String
  | built part vertices => s!"`{part}`: {vertices} vertices"
  | constructed vertices transitions =>
    s!"thompson construction: {vertices} vertices, {transitions} transitions"
  | closed q states => s!"epsilon closure of {q}: " ++ listing states
  | eliminated finishes transitions =>
    s!"epsilon elimination: {finishes} new finishes, {transitions} copied transitions"
  | expanding position states => s!"expanding {position} = " ++ listing states
  | determinized before after => s!"subset construction: {before} vertices -> {after} vertices"
  | completed missing sink =>
    s!"completion: {missing} missing transitions redirected to sink {sink}"

/-- The level and the message, as a line of a log. -/
def record (event : Event) : String :=
  event.level.name ++ " " ++ event.message

end Event

end Recognizer
