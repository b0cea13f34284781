import Recognizer.Expression.Printer

/-!
# Reading written expressions

A written form is a row of marks: symbols, stars, bars and parentheses. It is read from left to
right, one mark after the other, without looking ahead. What has been read so far stands in groups,
one for each parenthesis that is still open, the innermost first.

A star applies to the factor before it, so the last factor of a group is kept apart from those
before; the others are joined as soon as the next one begins, which groups them to the left.
-/

namespace Recognizer

/-- A mark of the written form. -/
inductive Mark where
  | symbol (s : Symbol)
  | star
  | bar
  | opening
  | closing
deriving DecidableEq, Repr

namespace Mark

/-- The mark as it is written. -/
def write : Mark → List Char
  | symbol (some c) => Expression.printChar c
  | symbol none => ['ε']
  | star => ['*']
  | bar => ['|']
  | opening => ['(']
  | closing => [')']

/-- The mark that a character makes when no backslash is before it. -/
def ofChar : Char → Mark
  | 'ε' => symbol none
  | '*' => star
  | '|' => bar
  | '(' => opening
  | ')' => closing
  | c => symbol (some c)

/-- The character that is meant by one after a backslash. -/
def unescape : Char → Char
  | 't' => '\t'
  | 'n' => '\n'
  | 'r' => '\r'
  | c => c

/-- The marks of a text. -/
def ofText : List Char → List Mark
  | [] => []
  | '\\' :: c :: rest => symbol (some (unescape c)) :: ofText rest
  | c :: rest => ofChar c :: ofText rest

end Mark

/-- One factor or several, with the last one apart. -/
structure Factors where
  /-- The factors before the last, joined. -/
  before : Option Expression
  last : Expression

/-- All factors joined. -/
def Factors.joined (factors : Factors) : Expression :=
  match factors.before with
  | none => factors.last
  | some e => .seq e factors.last

/-- What has been read since a parenthesis was opened. -/
structure Group where
  /-- The alternatives before the last bar, joined. -/
  before : Option Expression := none
  /-- The factors after the last bar; there are none right after it. -/
  factors : Option Factors := none

namespace Group

/-- All alternatives joined. -/
def joined (group : Group) : Option Expression :=
  group.factors.map fun factors =>
    match group.before with
    | none => factors.joined
    | some e => .alt e factors.joined

/-- The group with one more factor. -/
def push (group : Group) (e : Expression) : Group :=
  { group with factors := some ⟨group.factors.map Factors.joined, e⟩ }

/-- The group with a star after its last factor. -/
def repeatLast (group : Group) : Option Group :=
  group.factors.map fun factors =>
    { group with factors := some { factors with last := .star factors.last } }

/-- The group with a bar after its last alternative. -/
def endAlternative (group : Group) : Option Group :=
  group.joined.map fun e => { before := some e }

end Group

/-- The open groups after one more mark, if it may stand there. -/
def Mark.read : List Group → Mark → Option (List Group)
  | group :: outer, .symbol s => some (group.push (.atom s) :: outer)
  | group :: outer, .star => group.repeatLast.map (· :: outer)
  | group :: outer, .bar => group.endAlternative.map (· :: outer)
  | outer, .opening => some ({} :: outer)
  | group :: enclosing :: outer, .closing =>
    group.joined.map fun e => enclosing.push e :: outer
  | _, _ => none

namespace Expression

/-- The expression that the marks stand for. -/
def ofMarks? (marks : List Mark) : Option Expression := do
  match ← marks.foldlM Mark.read [{}] with
  | [group] => group.joined
  | _ => none

/-- The expression that a text stands for. -/
def read? (text : List Char) : Option Expression :=
  ofMarks? (Mark.ofText text)

/-- The marks of an operand, in parentheses if it binds more loosely than its place requires. -/
def encloseMarks (required own : Precedence) (marks : List Mark) : List Mark :=
  if own.strength < required.strength then .opening :: marks ++ [.closing] else marks

/-- The marks of the written form. -/
def marks : Expression → List Mark
  | atom s => [.symbol s]
  | seq l r =>
    encloseMarks .concatenation l.precedence l.marks ++ encloseMarks .atom r.precedence r.marks
  | alt l r =>
    encloseMarks .alternation l.precedence l.marks ++
      .bar :: encloseMarks .concatenation r.precedence r.marks
  | star e => encloseMarks .atom e.precedence e.marks ++ [.star]

end Expression

end Recognizer
