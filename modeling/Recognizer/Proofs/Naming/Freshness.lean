import Recognizer.Proofs.Document.EditedRoundTrip
import Recognizer.Proofs.Effect

/-!
# Vertices of new labels

A label that is asked for the first time gets the number of labels for its vertex, and nobody looks
whether the automaton has that vertex already. As long as every vertex has a label it has not, so the
vertex is new and no other one changes its name. A vertex that was added behind the names may be in the
way. Then the label is given to that vertex, which went by its numeral before (`vertex_of_new_label`,
`exists_vertex_taken`).

Numbers of vertices are counted twice, once in the table and once in the automaton. The one
thing that ties the two is that whatever has a label is a vertex (`Edited.coversLabels`).
-/

namespace Recognizer

open Text

/-- No operation takes a vertex away. -/
theorem Operation.contains_after {A : Automaton} {q : Vertex} (hA : A.WellFormed) (op : Operation)
    (himported : ∀ B ∈ op.imported?, B.WellFormed) (hq : A.contains q = true) :
    (op.after A).contains q = true := by
  have hsettles := op.settles_perform hA himported
  rw [after]
  cases hperform : op.perform A with
  | error e => exact hq
  | ok B =>
    rw [hperform] at hsettles
    exact (hsettles.2.contains_iff q).2 (Or.inl hq)

namespace NamedAutomaton

variable {L M : NamedAutomaton} {label : String} {names : List String} {p q : Vertex}

/-! ### Labels of vertices -/

/-- Whatever has a label is a vertex. -/
def CoversLabels (L : NamedAutomaton) : Prop :=
  ∀ q, (L.labels.labelOf? q).isSome = true → L.automaton.contains q = true

namespace CoversLabels

/-- Further vertices do no harm. -/
theorem mono (hL : L.CoversLabels) (hlabels : M.labels = L.labels)
    (hvertices : ∀ q, L.automaton.contains q = true → M.automaton.contains q = true) :
    M.CoversLabels := by
  intro q hq
  rw [hlabels] at hq
  exact hvertices q (hL q hq)

/-- Asking for a label adds the vertex that gets it. -/
theorem vertex (hL : L.CoversLabels) (label : String) : (L.vertex label).2.CoversLabels := by
  intro q hq
  change ((L.labels.intern label).2.labelOf? q).isSome = true at hq
  have hcontains : (L.vertex label).2.automaton.contains q = true ↔
      q = (L.labels.intern label).1 ∨ L.automaton.contains q = true := Automaton.contains_insertVertex
  rw [hcontains]
  cases hlabel : L.labels.vertex? label with
  | some r =>
    rw [LabelTable.intern_of_vertex?_eq_some hlabel] at hq
    exact Or.inr (hL q hq)
  | none =>
    rw [LabelTable.labelOf?_intern_of_new hlabel] at hq
    split at hq
    · next hsize =>
      rw [LabelTable.intern_of_vertex?_eq_none hlabel]
      exact Or.inl (by rw [← hsize, UInt32.ofNat_toNat])
    · exact Or.inr (hL q hq)

/-- Inserted names keep all labels covered. -/
theorem insertNames (hL : L.CoversLabels) (names : List String) :
    (L.insertNames names).CoversLabels := by
  induction names generalizing L with
  | nil => exact hL
  | cons name rest ih => exact ih (hL.vertex name)

/-- A further statement keeps all labels covered. -/
theorem addStatement (hL : L.CoversLabels) (statement : Statement) :
    (L.addStatement statement).CoversLabels := by
  refine (hL.insertNames statement.labels).mono ?_ fun q => contains_addStatement.2
  rw [addStatement_eq]

/-- Further statements keep all labels covered. -/
theorem foldl_addStatement (hL : L.CoversLabels) (statements : List Statement) :
    (statements.foldl NamedAutomaton.addStatement L).CoversLabels := by
  induction statements generalizing L with
  | nil => exact hL
  | cons statement rest ih => exact ih (hL.addStatement statement)

/-- A union by names keeps all labels covered. -/
theorem unionByName (hL : L.CoversLabels) (M : NamedAutomaton) : (L.unionByName M).CoversLabels :=
  (hL.insertNames (M.automaton.vertices.map M.name)).mono labels_unionByName
    fun _ => contains_unionByName.2

end CoversLabels

namespace Edited

/-- The labels of an edited automaton are indexed. -/
theorem isIndexed (hL : L.Edited) : L.labels.IsIndexed := by
  obtain ⟨names, hnames⟩ := hL.exists_labels_eq
  rw [hnames]
  exact LabelTable.isIndexed_empty.internAll names

/-- Whatever is edited, a label is that of a vertex. -/
theorem coversLabels (hL : L.Edited) : L.CoversLabels := by
  induction hL with
  | singleton start => exact (isTight_singleton start).contains_of_isSome
  | read h =>
    obtain ⟨contents, _, rfl⟩ := exists_contents_of_read h
    have hstart : (NamedAutomaton.singleton (String.ofList contents.start)).CoversLabels :=
      (isTight_singleton _).contains_of_isSome
    exact hstart.foldl_addStatement contents.statements
  | @edit L hL edit himported ih =>
    cases edit with
    | grow growth =>
      cases growth with
      | vertex label => exact ih.vertex label
      | unionByName M => exact ih.unionByName M
    | operate op => exact ih.mono rfl fun _ => op.contains_after hL.wellFormed himported

end Edited

/-! ### A label that is asked for the first time -/

section NewLabel

variable (hnew : L.labels.vertex? label = none)
include hnew

/-- A new label gets the number of labels before it. -/
theorem fst_vertex_of_new : (L.vertex label).1 = UInt32.ofNat L.labels.size := by
  change (L.labels.intern label).1 = _
  rw [LabelTable.intern_of_vertex?_eq_none hnew]

/-- Only one vertex can get another name. -/
theorem name_vertex_of_new :
    (L.vertex label).2.name p = if p.toNat = L.labels.size then label else L.name p := by
  change ((L.labels.intern label).2.labelOf? p).getD _ = _
  rw [LabelTable.labelOf?_intern_of_new hnew]
  split
  · rfl
  · rfl

/-- The vertex of the label is there already if some vertex has the number of labels, or if there are
no further numbers. -/
theorem contains_fst_vertex_iff (hL : L.CoversLabels) :
    L.automaton.contains (L.vertex label).1 = true ↔
      UInt32.size ≤ L.labels.size ∨ ∃ p, L.automaton.contains p = true ∧ p.toNat = L.labels.size := by
  rw [fst_vertex_of_new hnew]
  constructor
  · intro h
    by_cases hsize : UInt32.size ≤ L.labels.size
    · exact Or.inl hsize
    · exact Or.inr ⟨_, h, UInt32.toNat_ofNat_of_lt' (Nat.lt_of_not_le hsize)⟩
  · rintro (hsize | ⟨p, hp, hnumber⟩)
    · apply hL
      rw [LabelTable.isSome_labelOf?_iff]
      exact Nat.lt_of_lt_of_le (UInt32.ofNat L.labels.size).toNat_lt_size hsize
    · rwa [← hnumber, UInt32.ofNat_toNat]

end NewLabel

/-- A vertex with the number of labels has none, so it goes by its numeral. -/
theorem name_of_toNat_eq_size (h : p.toNat = L.labels.size) :
    L.name p = String.ofList (Numeral.write p) := by
  rw [name, LabelTable.labelOf?_eq_none_iff.2 (Nat.le_of_eq h.symm), Option.getD_none]

/-- After any operations, a label that is asked for the first time gets the vertex whose number is that
of the labels. It was there before exactly if some vertex, which then has no label, has this number, or
if no number is left. It is also the only one whose name changes, unless the label is its numeral. So if
every vertex has a label and a number is left, the vertex is new and all names are kept. -/
theorem vertex_of_new_label (hL : L.Edited) (label : String) (hnew : label ∉ L.labels.labels) :
    (L.vertex label).1 = UInt32.ofNat L.labels.size ∧
      (L.automaton.contains (L.vertex label).1 = true ↔ UInt32.size ≤ L.labels.size ∨
        ∃ p, L.automaton.contains p = true ∧ p.toNat = L.labels.size) ∧
      (∀ p, (L.vertex label).2.name p ≠ L.name p ↔
        p.toNat = L.labels.size ∧ label ≠ String.ofList (Numeral.write p)) ∧
      ((∀ p, L.automaton.contains p = true → (L.labels.labelOf? p).isSome = true) →
        L.labels.size < UInt32.size →
        L.automaton.contains (L.vertex label).1 = false ∧
          ∀ p, L.automaton.contains p = true → (L.vertex label).2.name p = L.name p) := by
  have hnone : L.labels.vertex? label = none := by
    rw [hL.isIndexed label] at hnew
    exact Option.not_isSome_iff_eq_none.1 hnew
  have htaken := contains_fst_vertex_iff hnone hL.coversLabels
  refine ⟨fst_vertex_of_new hnone, htaken, fun p => ?_, fun hlabelled hsize => ?_⟩
  · rw [name_vertex_of_new hnone]
    by_cases hp : p.toNat = L.labels.size
    · simp [hp, name_of_toNat_eq_size hp]
    · simp [hp]
  · have hne {p : Vertex} (hp : L.automaton.contains p = true) : p.toNat ≠ L.labels.size :=
      Nat.ne_of_lt (LabelTable.isSome_labelOf?_iff.1 (hlabelled p hp))
    constructor
    · rw [Bool.eq_false_iff, ne_eq, htaken]
      rintro (hfull | ⟨p, hp, hnumber⟩)
      · exact Nat.not_le_of_lt hsize hfull
      · exact hne hp hnumber
    · intro p hp
      rw [name_vertex_of_new hnone, if_neg (hne hp)]

/-- A new label adds a vertex to a point. After completion it goes to the sink instead. -/
theorem vertex_of_new_label_point :
    ((point ['p']).Edited ∧ "x" ∉ (point ['p']).labels.labels ∧
      (point ['p']).automaton.contains ((point ['p']).vertex "x").1 = false) ∧
    (completedPoint ['p']).Edited ∧ "x" ∉ (completedPoint ['p']).labels.labels ∧
      ((completedPoint ['p']).vertex "x").1 = 1 ∧
      ∀ p, ((completedPoint ['p']).vertex "x").2.name p ≠ (completedPoint ['p']).name p ↔ p = 1 := by
  have hpoint : read "p\n\np\n" = .ok (point ['p']) := rfl
  have hnew : "x" ∉ (point ['p']).labels.labels := by decide
  constructor
  · have hlabelled : (point ['p']).IsLabelled :=
      (isTight_ofContents (by unfold Fits; decide +kernel)).toIsLabelled
    obtain ⟨_, _, _, hfresh⟩ := vertex_of_new_label (.read hpoint) "x" hnew
    exact ⟨.read hpoint, hnew, (hfresh hlabelled.isSome_labelOf? (by decide)).1⟩
  · have hedited := edited_completedPoint hpoint
    obtain ⟨hfirst, _, hnames, _⟩ := vertex_of_new_label hedited "x" hnew
    refine ⟨hedited, hnew, hfirst, fun p => ?_⟩
    rw [hnames p]
    constructor
    · rintro ⟨hnumber, _⟩
      exact UInt32.toNat_inj.1 hnumber
    · rintro rfl
      exact ⟨rfl, by decide +kernel⟩

/-- A new label can go to a vertex that is there already, which then loses its name. -/
theorem exists_vertex_taken :
    ∃ (L : NamedAutomaton) (label : String), L.Edited ∧ label ∉ L.labels.labels ∧
      L.automaton.contains (L.vertex label).1 = true ∧
      (L.vertex label).2.name (L.vertex label).1 ≠ L.name (L.vertex label).1 := by
  have hpoint : read "p\n\np\n" = .ok (point ['p']) := rfl
  refine ⟨_, "x", edited_completedPoint hpoint, by decide, ?_, ?_⟩
  · rw [completedPoint_eq ['p'] rfl]
    decide +kernel
  · rw [completedPoint_eq ['p'] rfl]
    decide +kernel

end NamedAutomaton

end Recognizer
