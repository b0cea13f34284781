import Recognizer.Expression.Basic

/-!
# The written form of expressions

Concatenation is written by juxtaposition, alternation by a bar and Kleene closure by a star. An
operand is put in parentheses when it binds more loosely than its place requires, and chains are
written without parentheses when they group to the left.

Characters with a meaning of their own are escaped by a backslash. The empty word is written as the
letter epsilon, so that letter is escaped where it stands for itself.
-/

namespace Recognizer

/-- How tightly an operator binds. -/
inductive Precedence where
  | alternation
  | concatenation
  | atom
deriving DecidableEq, Repr

/-- The place in the order from loosest to tightest. -/
def Precedence.strength : Precedence → Nat
  | alternation => 0
  | concatenation => 1
  | atom => 2

namespace Expression

/-- How tightly the outermost operator binds. -/
def precedence : Expression → Precedence
  | atom _ | star _ => .atom
  | seq _ _ => .concatenation
  | alt _ _ => .alternation

/-- The written form of a character: escaped if it would be read as something else. -/
def printChar (c : Char) : List Char :=
  match c with
  | '(' | ')' | '*' | '|' | '\\' | 'ε' => ['\\', c]
  | '\t' => ['\\', 't']
  | '\n' => ['\\', 'n']
  | '\r' => ['\\', 'r']
  | _ => [c]

/-- Parenthesize the text of an operand if it binds more loosely than its place requires. -/
def enclose (required own : Precedence) (text : List Char) : List Char :=
  if own.strength < required.strength then '(' :: text ++ [')'] else text

/-- The written form, as characters. -/
def print : Expression → List Char
  | atom (some c) => printChar c
  | atom none => ['ε']
  | seq l r =>
    enclose .concatenation l.precedence l.print ++ enclose .atom r.precedence r.print
  | alt l r =>
    enclose .alternation l.precedence l.print ++
      '|' :: enclose .concatenation r.precedence r.print
  | star e => enclose .atom e.precedence e.print ++ ['*']

/-- The written form as an operand in a place that requires the given precedence. -/
def printOperand (required : Precedence) (e : Expression) : List Char :=
  enclose required e.precedence e.print

instance : ToString Expression where
  toString e := String.ofList e.print

end Expression

end Recognizer
