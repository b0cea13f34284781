import Recognizer.NamedAutomaton.Basic
import Recognizer.Text.Numeral

/-!
# Drawings of automata

The text of a graph in the DOT language: a node for each vertex, doubly circled if it is a finish,
an edge for each transition, and an arrow into the start. Nodes are identified by their numbers and
labelled by their names.

Names and symbols stand in quoted strings, where the quote and the backslash are escaped. A symbol
other than a visible ASCII character is given by its code point, so that a silent step, drawn as the
letter epsilon, differs from a step on that letter.
-/

namespace Recognizer

open Text

namespace Drawing

/-- Escape the characters with a meaning in a quoted string. -/
def escapeQuoted (c : Char) : List Char :=
  if c = '"' || c = '\\' then ['\\', c] else [c]

/-- The text with `replacement` in the place of every `c`. -/
def replaceChar (text : List Char) (c : Char) (replacement : List Char) : List Char :=
  text.flatMap fun d => if d = c then replacement else [d]

/-- A name in a quoted string: first every backslash is escaped, then every quote. -/
def escapeName (name : List Char) : List Char :=
  replaceChar (replaceChar name '\\' "\\\\".toList) '"' "\\\"".toList

/-- Whether `c` is an ASCII character that leaves a mark. -/
def isVisibleAscii (c : Char) : Bool :=
  0x21 ≤ c.toNat && c.toNat ≤ 0x7E

/-- The label of an edge. -/
def symbolLabel : Symbol → List Char
  | none => ['ε']
  | some c => if isVisibleAscii c then escapeQuoted c else '\\' :: codePoint c

/-- The identifier of the node of a vertex. -/
def node (q : Vertex) : List Char :=
  'q' :: Numeral.write q

/-- The line that declares a node, whose name is put into the quoted string as it is given. -/
def nodeLine (A : Automaton) (name : Vertex → List Char) (q : Vertex) : List Char :=
  let shape := if A.isFinish q then "doublecircle" else "circle"
  '\t' :: node q ++ " [label = \"".toList ++ name q ++ "\", shape = ".toList ++ shape.toList ++ [']']

/-- The line of a transition. -/
def edgeLine (t : Transition Vertex) : List Char :=
  '\t' :: node t.source ++ " -> ".toList ++ node t.target ++ " [label = \"".toList ++
    symbolLabel t.symbol ++ "\"]".toList

/-- The lines of a drawing, with the given names in the nodes. -/
def graphLines (A : Automaton) (name : Vertex → List Char) : List (List Char) :=
  ["digraph \x7b".toList, "\tstart [shape = point]".toList] ++
    A.vertices.map (nodeLine A name) ++
    ["\tstart -> ".toList ++ node A.start] ++
    A.transitions.map edgeLine

/-- The drawing, which ends with the closing brace. -/
def graph (A : Automaton) (name : Vertex → List Char) : List Char :=
  (graphLines A name).flatMap (· ++ ['\n']) ++ ['\x7d']

end Drawing

/-- The drawing of an automaton, with vertices named by their numbers. -/
def Automaton.drawing (A : Automaton) : String :=
  String.ofList (Drawing.graph A Numeral.write)

/-- The drawing of an automaton, with vertices named by their labels. -/
def NamedAutomaton.drawing (L : NamedAutomaton) : String :=
  String.ofList (Drawing.graph L.automaton fun q => Drawing.escapeName (L.name q).toList)

end Recognizer
