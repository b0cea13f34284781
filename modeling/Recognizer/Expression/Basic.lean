import Recognizer.Transition

/-!
# Regular expressions

Expression trees over characters and the empty word, with concatenation, alternation and Kleene
closure. Trees are compared first by their outermost operator and then part by part from the left,
so the order is total and decides equality.
-/

namespace Recognizer

/-- A regular expression. -/
inductive Expression where
  /-- A single character, or the empty word for the silent symbol. -/
  | atom (symbol : Symbol)
  /-- A word of `left` followed by a word of `right`. -/
  | seq (left right : Expression)
  /-- A word of `left` or a word of `right`. -/
  | alt (left right : Expression)
  /-- Any number of words of `inner`, one after the other. -/
  | star (inner : Expression)
deriving DecidableEq

namespace Expression

/-- The expression that matches the character `c` only. -/
def char (c : Char) : Expression :=
  atom (some c)

/-- The expression that matches the empty word only. -/
def epsilon : Expression :=
  atom none

/-- Join the items by `op`, grouping to the left; nothing can be made of no items. -/
def joinWith (op : Expression → Expression → Expression) : List Expression → Option Expression
  | [] => none
  | first :: rest => some (rest.foldl op first)

/-- The left-nested concatenation of the items. -/
def seqOf (items : List Expression) : Option Expression :=
  joinWith seq items

/-- The left-nested alternation of the items. -/
def altOf (items : List Expression) : Option Expression :=
  joinWith alt items

/-- The expression that matches `text` only. -/
def literal (text : String) : Expression :=
  (seqOf (text.toList.map char)).getD epsilon

/-- The number of nodes of the tree. -/
def size : Expression → Nat
  | atom _ => 1
  | seq l r | alt l r => 1 + l.size + r.size
  | star e => 1 + e.size

/-- The symbols of the atoms, from left to right. -/
def symbols : Expression → List Symbol
  | atom s => [s]
  | seq l r | alt l r => l.symbols ++ r.symbols
  | star e => e.symbols

/-- The place of the outermost operator in the order of operators. -/
def rank : Expression → Nat
  | atom _ => 0
  | seq _ _ => 1
  | alt _ _ => 2
  | star _ => 3

/-- Compare by the outermost operators, and parts from left to right if these agree. -/
def compareTo : Expression → Expression → Ordering
  | atom s, atom t => compare s t
  | seq l r, seq l' r' | alt l r, alt l' r' => (l.compareTo l').then (r.compareTo r')
  | star e, star f => e.compareTo f
  | e, f => compare e.rank f.rank

instance : Ord Expression where
  compare := compareTo

/-- Every expression is equivalent to itself. -/
theorem compareTo_self (e : Expression) : e.compareTo e = .eq := by
  induction e <;> simp_all [compareTo]

/-- Expressions that compare equal are equal. -/
theorem eq_of_compareTo_eq {e f : Expression} (h : e.compareTo f = .eq) : e = f := by
  induction e generalizing f <;> cases f <;>
    simp_all [compareTo, rank, Ordering.then_eq_eq]
  all_goals grind

instance : Std.LawfulEqOrd Expression where
  compare_self {e} := e.compareTo_self
  eq_of_compare := eq_of_compareTo_eq

end Expression

end Recognizer
