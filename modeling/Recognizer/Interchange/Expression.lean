import Recognizer.Expression.Basic
import Recognizer.Interchange.Value

/-!
# Expressions as values

An expression is a record with a single field: the name of its outermost operator, holding the
operands. What is written reads back (`ofValue?_toValue`), and nothing else is read.
-/

namespace Recognizer.Expression

/-- The value of an expression. -/
def toValue : Expression → Value
  | atom symbol => .record [("Atom", .ofSymbol symbol)]
  | seq l r => .record [("Concatenation", .list [l.toValue, r.toValue])]
  | alt l r => .record [("Alternation", .list [l.toValue, r.toValue])]
  | star e => .record [("KleeneStar", e.toValue)]

/-- The expression that a value stands for. -/
def ofValue? : Value → Option Expression
  | .record [("Atom", operand)] => operand.symbol?.map atom
  | .record [("Concatenation", .list [l, r])] => do return seq (← ofValue? l) (← ofValue? r)
  | .record [("Alternation", .list [l, r])] => do return alt (← ofValue? l) (← ofValue? r)
  | .record [("KleeneStar", operand)] => do return star (← ofValue? operand)
  | _ => none

/-- Every expression is read back from its value. -/
theorem ofValue?_toValue (e : Expression) : ofValue? e.toValue = some e := by
  induction e with
  | atom s => simp [toValue, ofValue?, Value.symbol?_ofSymbol]
  | seq l r ihl ihr => simp [toValue, ofValue?, ihl, ihr]
  | alt l r ihl ihr => simp [toValue, ofValue?, ihl, ihr]
  | star e ih => simp [toValue, ofValue?, ih]

end Recognizer.Expression
