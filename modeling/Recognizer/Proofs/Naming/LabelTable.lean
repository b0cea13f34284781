import Mathlib.Data.List.Nodup
import Recognizer.NamedAutomaton.LabelTable

/-!
# Tables of labels as they grow

A table gains at most one label at a time, after all others, so no label loses its vertex and no
vertex its label (`extends_intern`). The labels stay distinct, and looking up finds just the labels
of the table, however many there are.

As long as there are enough identifiers for all labels, looking up is the inverse of reading off
(`IsConsistent.intern`). After that the next label would be given a vertex that has one.
-/

namespace Recognizer

open Std

namespace LabelTable

variable {L M N : LabelTable} {label other : String} {labels : List String} {q : Vertex}

/-- The table after some labels were asked for. -/
def internAll (L : LabelTable) (labels : List String) : LabelTable :=
  labels.foldl (fun L label => (L.intern label).2) L

/-- A label that has a vertex keeps it. -/
theorem intern_of_vertex?_eq_some (h : L.vertex? label = some q) : L.intern label = (q, L) := by
  rw [intern, h]

/-- A label that has no vertex gets the number of labels before it. -/
theorem intern_of_vertex?_eq_none (h : L.vertex? label = none) :
    L.intern label = (UInt32.ofNat L.size,
      ⟨L.labels ++ [label], L.index.insert label (UInt32.ofNat L.size)⟩) := by
  rw [intern, h]

/-- Joined lists of labels are interned one after the other. -/
theorem internAll_append (L : LabelTable) (labels more : List String) :
    L.internAll (labels ++ more) = (L.internAll labels).internAll more :=
  List.foldl_append

/-! ### Labels that can be looked up -/

/-- Just the labels of the table can be looked up. -/
def IsIndexed (L : LabelTable) : Prop :=
  ∀ label, label ∈ L.labels ↔ (L.vertex? label).isSome = true

/-- The table without labels is indexed. -/
theorem isIndexed_empty : (∅ : LabelTable).IsIndexed := by
  intro label
  change label ∈ [] ↔ (∅ : Std.ExtTreeMap String Vertex)[label]?.isSome = true
  simp

/-- A label is in the table once it was asked for. -/
theorem IsIndexed.mem_intern (hL : L.IsIndexed) :
    other ∈ (L.intern label).2.labels ↔ other = label ∨ other ∈ L.labels := by
  rw [LabelTable.intern]
  split
  · next q hq =>
    have hmem : label ∈ L.labels := (hL label).2 (by rw [hq]; rfl)
    exact (or_iff_right_of_imp fun h => h ▸ hmem).symm
  · simp [or_comm]

/-- To intern a label keeps the table indexed. -/
theorem IsIndexed.intern (hL : L.IsIndexed) (label : String) : (L.intern label).2.IsIndexed := by
  intro other
  rw [hL.mem_intern]
  by_cases h : other = label
  · simp [h, vertex?_intern_self]
  · rw [vertex?_intern_of_ne L h, ← hL other]
    simp [h]

/-- The labels after interning are those before and the interned ones. -/
theorem IsIndexed.mem_internAll (hL : L.IsIndexed) :
    label ∈ (L.internAll labels).labels ↔ label ∈ labels ∨ label ∈ L.labels := by
  induction labels generalizing L with
  | nil => simp [internAll]
  | cons first rest ih =>
    rw [internAll, List.foldl_cons, ← internAll, ih (hL.intern first), hL.mem_intern,
      List.mem_cons, or_left_comm, or_assoc]

/-- Only a label that the table lacks is appended, so the labels stay distinct. -/
theorem IsIndexed.nodup_intern (hL : L.IsIndexed) (hnodup : L.labels.Nodup) (label : String) :
    (L.intern label).2.labels.Nodup := by
  cases hlabel : L.vertex? label with
  | some q =>
    rw [intern_of_vertex?_eq_some hlabel]
    exact hnodup
  | none =>
    have hnew : label ∉ L.labels := by
      rw [hL label, hlabel]
      exact Bool.false_ne_true
    rw [intern_of_vertex?_eq_none hlabel, ← List.concat_eq_append]
    exact hnodup.concat hnew

/-- Interning keeps the labels distinct. -/
theorem IsIndexed.nodup_internAll (hL : L.IsIndexed) (hnodup : L.labels.Nodup)
    (labels : List String) : (L.internAll labels).labels.Nodup := by
  induction labels generalizing L with
  | nil => exact hnodup
  | cons first rest ih => exact ih (hL.intern first) (hL.nodup_intern hnodup first)

/-- To intern labels keeps the table indexed. -/
theorem IsIndexed.internAll (hL : L.IsIndexed) (labels : List String) :
    (L.internAll labels).IsIndexed := by
  induction labels generalizing L with
  | nil => exact hL
  | cons first rest ih => exact ih (hL.intern first)

/-! ### Tables with more labels -/

/-- `M` has the labels of `L` for the same vertices, and perhaps more. -/
structure Extends (M L : LabelTable) : Prop where
  isPrefix_labels : L.labels <+: M.labels
  vertex?_eq_some : ∀ label q, L.vertex? label = some q → M.vertex? label = some q

namespace Extends

/-- A table extends itself. -/
theorem refl (L : LabelTable) : L.Extends L :=
  ⟨List.prefix_refl _, fun _ _ h => h⟩

/-- An extension of an extension is one. -/
theorem trans (h : N.Extends M) (h' : M.Extends L) : N.Extends L where
  isPrefix_labels := h'.isPrefix_labels.trans h.isPrefix_labels
  vertex?_eq_some label q hq := h.vertex?_eq_some label q (h'.vertex?_eq_some label q hq)

/-- An extension has at least as many labels. -/
theorem size_le (h : M.Extends L) : L.size ≤ M.size :=
  h.isPrefix_labels.length_le

/-- A vertex keeps its label. -/
theorem labelOf?_eq_some (h : M.Extends L) (hq : L.labelOf? q = some label) :
    M.labelOf? q = some label := by
  obtain ⟨more, hmore⟩ := h.isPrefix_labels
  obtain ⟨hlt, _⟩ := List.getElem?_eq_some_iff.1 hq
  rw [labelOf?, ← hmore, List.getElem?_append_left hlt]
  exact hq

end Extends

/-- Asking for a label takes nothing from the table. -/
theorem extends_intern (L : LabelTable) (label : String) : (L.intern label).2.Extends L := by
  cases hlabel : L.vertex? label with
  | some q =>
    rw [intern_of_vertex?_eq_some hlabel]
    exact Extends.refl L
  | none =>
    refine ⟨?_, fun other q hq => ?_⟩
    · rw [intern_of_vertex?_eq_none hlabel]
      exact List.prefix_append _ _
    · have hne : other ≠ label := by
        rintro rfl
        rw [hlabel] at hq
        cases hq
      rw [vertex?_intern_of_ne L hne, hq]

/-! ### Consistent tables -/

/-- The labels are distinct, and looking up is the inverse of reading off. -/
structure IsConsistent (L : LabelTable) : Prop where
  nodup : L.labels.Nodup
  vertex?_eq_some_iff : ∀ label q, L.vertex? label = some q ↔ L.labelOf? q = some label

/-- Just the vertices below the number of labels have one. -/
theorem isSome_labelOf?_iff : (L.labelOf? q).isSome = true ↔ q.toNat < L.size := by
  simp [labelOf?, size]

/-- Just the vertices from the number of labels on have none. -/
theorem labelOf?_eq_none_iff : L.labelOf? q = none ↔ L.size ≤ q.toNat :=
  List.getElem?_eq_none_iff

/-- The table without labels is consistent. -/
theorem isConsistent_empty : (∅ : LabelTable).IsConsistent := by
  refine ⟨List.nodup_nil, fun label q => ?_⟩
  change (∅ : ExtTreeMap String Vertex)[label]? = some q ↔ ([] : List String)[q.toNat]? = some label
  simp

/-- Where identifiers last for all labels, each label can be looked up. -/
theorem IsConsistent.isIndexed (hL : L.IsConsistent) (hfits : L.size ≤ UInt32.size) :
    L.IsIndexed := by
  intro label
  rw [List.mem_iff_getElem?, Option.isSome_iff_exists]
  constructor
  · rintro ⟨i, hi⟩
    have hlt : i < UInt32.size := Nat.lt_of_lt_of_le (List.getElem?_eq_some_iff.1 hi).1 hfits
    refine ⟨UInt32.ofNat i, (hL.vertex?_eq_some_iff _ _).2 ?_⟩
    rw [labelOf?, UInt32.toNat_ofNat_of_lt' hlt, hi]
  · rintro ⟨q, hq⟩
    exact ⟨q.toNat, (hL.vertex?_eq_some_iff _ _).1 hq⟩

/-- The last place of a list that was extended by one item holds that item. -/
theorem getElem?_concat_eq_some_iff {α : Type} {items : List α} {last a : α} {i : Nat} :
    (items ++ [last])[i]? = some a ↔ items[i]? = some a ∨ i = items.length ∧ last = a := by
  rcases Nat.lt_trichotomy i items.length with hlt | rfl | hgt
  · rw [List.getElem?_append_left hlt]
    exact (or_iff_left fun h => absurd h.1 (Nat.ne_of_lt hlt)).symm
  · simp
  · have hlong : (items ++ [last])[i]? = none := by
      rw [List.getElem?_eq_none_iff, List.length_append, List.length_singleton]
      exact hgt
    rw [hlong, List.getElem?_eq_none (Nat.le_of_lt hgt)]
    simp [Nat.ne_of_gt hgt]

/-- A label that is asked for the first time goes to the vertex after all labelled ones, if there is
such a vertex. -/
theorem labelOf?_intern_of_new (h : L.vertex? label = none) :
    (L.intern label).2.labelOf? q = if q.toNat = L.size then some label else L.labelOf? q := by
  rw [intern_of_vertex?_eq_none h]
  refine Option.ext fun other => ?_
  rw [labelOf?, getElem?_concat_eq_some_iff]
  change L.labelOf? q = some other ∨ q.toNat = L.size ∧ label = other ↔ _
  by_cases hq : q.toNat = L.size
  · have hnone : L.labelOf? q = none := labelOf?_eq_none_iff.2 (Nat.le_of_eq hq.symm)
    simp [hq, hnone]
  · simp [hq]

/-- A consistent table stays so as long as identifiers last for all its labels. -/
theorem IsConsistent.intern (hL : L.IsConsistent)
    (hfits : (L.intern label).2.size ≤ UInt32.size) : (L.intern label).2.IsConsistent := by
  have hindexed := hL.isIndexed (Nat.le_trans (L.extends_intern label).size_le hfits)
  refine ⟨hindexed.nodup_intern hL.nodup label, fun other q => ?_⟩
  cases hlabel : L.vertex? label with
  | some r =>
    rw [intern_of_vertex?_eq_some hlabel]
    exact hL.vertex?_eq_some_iff other q
  | none =>
    rw [intern_of_vertex?_eq_none hlabel] at hfits ⊢
    have hlt : L.size < UInt32.size := by
      rwa [size, List.length_append, List.length_singleton] at hfits
    have hq : UInt32.ofNat L.size = q ↔ q.toNat = L.size := by
      rw [← UInt32.toNat_inj, UInt32.toNat_ofNat_of_lt' hlt, eq_comm]
    rw [vertex?, labelOf?, getElem?_concat_eq_some_iff, ExtTreeMap.getElem?_insert]
    change _ ↔ L.labelOf? q = some other ∨ q.toNat = L.size ∧ label = other
    rw [← hL.vertex?_eq_some_iff, ← hq]
    by_cases hother : label = other
    · rw [← hother, hlabel]
      simp
    · simp [hother, vertex?]

/-- The vertices with a label are the old ones and that of the label asked for. -/
theorem IsConsistent.isSome_labelOf?_intern (hL : L.IsConsistent)
    (hfits : (L.intern label).2.size ≤ UInt32.size) :
    ((L.intern label).2.labelOf? q).isSome = true ↔
      q = (L.intern label).1 ∨ (L.labelOf? q).isSome = true := by
  have hintern := hL.intern hfits
  simp only [Option.isSome_iff_exists, ← hL.vertex?_eq_some_iff, ← hintern.vertex?_eq_some_iff]
  constructor
  · rintro ⟨other, hother⟩
    by_cases heq : other = label
    · rw [heq, vertex?_intern_self, Option.some.injEq] at hother
      exact Or.inl hother.symm
    · rw [vertex?_intern_of_ne L heq] at hother
      exact Or.inr ⟨other, hother⟩
  · rintro (rfl | ⟨other, hother⟩)
    · exact ⟨label, vertex?_intern_self L label⟩
    · exact ⟨other, (L.extends_intern label).vertex?_eq_some _ _ hother⟩

end LabelTable

end Recognizer
