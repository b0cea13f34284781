import Recognizer.Transition
import Recognizer.Text.Quoted

/-!
# Tables of labels

A table gives vertices to labels, from zero on, in the order in which the labels are first asked
for. It keeps the labels by vertex and, for looking up, the vertices by label. Both sides agree in
any table grown from the empty one; a table may also be put together from two sides that do not.
-/

namespace Recognizer

open Std

/-- A table of labels. -/
structure LabelTable where
  /-- The labels by vertex. -/
  labels : List String
  /-- The vertices by label. -/
  index : ExtTreeMap String Vertex

namespace LabelTable

instance : EmptyCollection LabelTable where
  emptyCollection := ⟨[], ∅⟩

/-- The number of labels. -/
def size (L : LabelTable) : Nat :=
  L.labels.length

/-- The vertex of a label, if it has one. -/
def vertex? (L : LabelTable) (label : String) : Option Vertex :=
  L.index[label]?

/-- The label of a vertex, if it has one. -/
def labelOf? (L : LabelTable) (q : Vertex) : Option String :=
  L.labels[q.toNat]?

/-- The vertex of a label, which becomes the next one free if the label is new. -/
def intern (L : LabelTable) (label : String) : Vertex × LabelTable :=
  match L.vertex? label with
  | some q => (q, L)
  | none =>
    let q := UInt32.ofNat L.size
    (q, { labels := L.labels ++ [label], index := L.index.insert label q })

/-- The vertices with their labels, ascending. -/
def entries (L : LabelTable) : List (Vertex × String) :=
  L.labels.zipIdx.map fun (label, i) => (UInt32.ofNat i, label)

/-- Tables count as equal if they give the same labels to the same vertices. -/
instance : BEq LabelTable where
  beq L M := L.labels == M.labels

/-- The labels in order, as a report shows them. -/
def describe (L : LabelTable) : String :=
  "Labels \x7b names: [" ++ ", ".intercalate (L.labels.map Text.quoteText) ++ "] \x7d"

/-- The vertex that `intern` returns is that of the label from then on. -/
theorem vertex?_intern_self (L : LabelTable) (label : String) :
    (L.intern label).2.vertex? label = some (L.intern label).1 := by
  unfold intern
  split
  · assumption
  · simp [vertex?]

/-- Other labels are not affected by `intern`. -/
theorem vertex?_intern_of_ne (L : LabelTable) {label other : String} (h : other ≠ label) :
    (L.intern label).2.vertex? other = L.vertex? other := by
  unfold intern
  split
  · rfl
  · simp [vertex?, ExtTreeMap.getElem?_insert, Ne.symm h]

end LabelTable

end Recognizer
