import Recognizer.Automaton.Basic
import Recognizer.Interchange.Value

/-!
# Automata as values

An automaton is a record of its start, its finishes and its table of transitions. Reading takes any
record of that form as it is: targets and finishes need not be vertices, sets of targets may be
empty, and further fields are ignored. Of entries with the same key the last one counts.

As every automaton is read back from its value (`Automaton.ofValue?_toValue`), what can be read is
every automaton there is, well-formed or not.
-/

namespace Recognizer

open Std

/-- A table is made up of its entries. -/
theorem ofList_toList {κ μ : Type} [Ord κ] [TransOrd κ] [LawfulEqOrd κ] [BEq κ]
    [LawfulBEqOrd κ] (table : ExtTreeMap κ μ) :
    ExtTreeMap.ofList table.toList = table := by
  refine ExtTreeMap.ext_getElem? fun k => ?_
  cases hk : table[k]? with
  | none =>
    apply ExtTreeMap.getElem?_ofList_of_contains_eq_false
    simpa using hk
  | some m =>
    exact ExtTreeMap.getElem?_ofList_of_mem ReflCmp.compare_self table.distinct_keys_toList
      (ExtTreeMap.mem_toList_iff_getElem?_eq_some.2 hk)

/-- A set of vertices as a value. -/
def Value.ofVertices (states : VertexSet) : Value :=
  .list (states.toList.map .ofVertex)

/-- The set of vertices that a value stands for. -/
def Value.vertices? (value : Value) : Option VertexSet :=
  (value.list? Value.vertex?).map fun qs => ExtTreeSet.ofList qs

/-- A set of vertices is read back from its value. -/
theorem Value.vertices?_ofVertices (states : VertexSet) :
    (ofVertices states).vertices? = some states := by
  rw [vertices?, ofVertices, list?_map vertex?_ofVertex, Option.map_some, Option.some.injEq]
  exact ExtTreeSet.ext_mem fun q => by simp

/-- The transitions of one vertex as a value. -/
def Outgoing.toValue (out : Outgoing) : Value :=
  .list (out.toList.map fun (symbol, targets) =>
    .list [.ofSymbol symbol, .ofVertices targets])

/-- The transitions of one vertex that a value stands for. -/
def Outgoing.ofValue? (value : Value) : Option Outgoing :=
  (value.table? Value.symbol? Value.vertices?).map fun entries => ExtTreeMap.ofList entries

/-- The transitions of one vertex are read back from their value. -/
theorem Outgoing.ofValue?_toValue (out : Outgoing) : ofValue? out.toValue = some out := by
  have hentry (entry : Symbol × VertexSet) :
      Value.pair? Value.symbol? Value.vertices?
        (.list [.ofSymbol entry.1, .ofVertices entry.2]) = some entry := by
    rw [Value.pair?, Value.symbol?_ofSymbol, Value.vertices?_ofVertices]
    rfl
  rw [ofValue?, toValue, Value.table?, Value.list?_map hentry, Option.map_some, ofList_toList]

namespace Automaton

variable {value start finishes table : Value} {q : Vertex} {states : VertexSet}
variable {entries : List (Vertex × Outgoing)}

/-- The value of an automaton. -/
def toValue (A : Automaton) : Value :=
  .record
    [("start", .ofVertex A.start),
     ("finishes", .ofVertices A.finishes),
     ("transitions", .list (A.outgoing.toList.map fun (q, out) =>
        .list [.ofVertex q, Outgoing.toValue out]))]

/-- The automaton that a value stands for. -/
def ofValue? (value : Value) : Option Automaton := do
  let start ← (← value.field? "start").vertex?
  let finishes ← (← value.field? "finishes").vertices?
  let entries ← (← value.field? "transitions").table? Value.vertex? Outgoing.ofValue?
  return { start, finishes, outgoing := ExtTreeMap.ofList entries }

/-- A record with the three fields stands for the automaton that they describe. -/
theorem ofValue?_eq_some (hstart : value.field? "start" = some start)
    (hfinishes : value.field? "finishes" = some finishes)
    (htable : value.field? "transitions" = some table) (hq : start.vertex? = some q)
    (hstates : finishes.vertices? = some states)
    (hentries : table.table? Value.vertex? Outgoing.ofValue? = some entries) :
    ofValue? value = some { start := q, finishes := states, outgoing := .ofList entries } := by
  simp only [ofValue?, hstart, hfinishes, htable, hq, hstates, hentries, Option.bind_eq_bind,
    Option.bind_some, Option.pure_def]

/-- Every automaton is read back from its value. -/
theorem ofValue?_toValue (A : Automaton) : ofValue? A.toValue = some A := by
  have hentry (entry : Vertex × Outgoing) :
      Value.pair? Value.vertex? Outgoing.ofValue? (.list [.ofVertex entry.1, entry.2.toValue]) =
        some entry := by
    rw [Value.pair?, Value.vertex?_ofVertex, Outgoing.ofValue?_toValue]
    rfl
  rw [ofValue?_eq_some rfl rfl rfl (Value.vertex?_ofVertex A.start)
    (Value.vertices?_ofVertices A.finishes)
    (Value.list?_map hentry A.outgoing.toList), ofList_toList]

end Automaton

end Recognizer
