import Recognizer.Interchange.Value
import Recognizer.NamedAutomaton.LabelTable

/-!
# Tables of labels as values

A table of labels is a record of its labels by vertex and its vertices by label. The two sides are
read independently and are not compared.
-/

namespace Recognizer.LabelTable

open Std

/-- The table that a value stands for. -/
def ofValue? (value : Value) : Option LabelTable := do
  let labels ← (← value.field? "names").list? Value.text?
  let entries ← (← value.field? "index").table? Value.text? Value.vertex?
  return { labels, index := ExtTreeMap.ofList entries }

end Recognizer.LabelTable
