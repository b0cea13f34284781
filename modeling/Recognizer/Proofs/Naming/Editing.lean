import Recognizer.Proofs.Naming.Growth
import Recognizer.Proofs.Preservation

/-!
# Named automata that are edited behind their names

Operations on the automaton take no notice of the table of labels, so a vertex may come about without
a label, and it goes by its numeral. The automaton stays well-formed all the same, and the labels stay
distinct (`Edited.wellFormed`, `Edited.nodup_labels`).

Nothing keeps numerals and labels apart. Two vertices have one name exactly if one of them has no
label and the label of the other is its numeral (`name_eq_name_iff`).
-/

namespace Recognizer

open Text

namespace NamedAutomaton

variable {L : NamedAutomaton} {names : List String} {q r : Vertex}

/-! ### Vertices without label -/

/-- `q` has no label, and `r` has the numeral of `q` as its label. -/
structure IsMistakenFor (L : NamedAutomaton) (q r : Vertex) : Prop where
  labelOf?_eq_none : L.labels.labelOf? q = none
  labelOf?_eq_numeral : L.labels.labelOf? r = some (String.ofList (Numeral.write q))

/-- A vertex has the name of the one it is mistaken for. -/
theorem IsMistakenFor.name_eq_name (h : L.IsMistakenFor q r) : L.name q = L.name r := by
  rw [name, name, h.labelOf?_eq_none, h.labelOf?_eq_numeral]
  rfl

/-- Where no label can be read as a numeral, no vertex is mistaken for another one. -/
theorem not_isMistakenFor
    (hlabels : ∀ label ∈ L.labels.labels, Numeral.read label.toList = none) :
    ¬L.IsMistakenFor q r := by
  intro h
  have hread := hlabels _ (List.mem_of_getElem? h.labelOf?_eq_numeral)
  rw [String.toList_ofList, Numeral.read_write] at hread
  cases hread

/-- Where labels are distinct, nothing else than a label that is a numeral gives one name to two
vertices. -/
theorem name_eq_name_iff (hnodup : L.labels.labels.Nodup) (hne : q ≠ r) :
    L.name q = L.name r ↔ L.IsMistakenFor q r ∨ L.IsMistakenFor r q := by
  constructor
  · intro h
    rw [name, name] at h
    cases hq : L.labels.labelOf? q with
    | none =>
      cases hr : L.labels.labelOf? r with
      | none =>
        rw [hq, hr, Option.getD_none, Option.getD_none, ← String.toList_inj, String.toList_ofList,
          String.toList_ofList, Numeral.write_inj] at h
        exact absurd h hne
      | some label =>
        rw [hq, hr, Option.getD_none, Option.getD_some] at h
        exact Or.inl ⟨hq, h ▸ hr⟩
    | some label =>
      cases hr : L.labels.labelOf? r with
      | none =>
        rw [hq, hr, Option.getD_none, Option.getD_some] at h
        exact Or.inr ⟨hr, h ▸ hq⟩
      | some other =>
        rw [hq, hr, Option.getD_some, Option.getD_some] at h
        have hlt : q.toNat < L.labels.labels.length := (List.getElem?_eq_some_iff.1 hq).1
        have hsame : q.toNat = r.toNat :=
          (List.getElem?_inj hlt hnodup).1 (hq.trans (h ▸ hr.symm))
        exact absurd (UInt32.toNat_inj.1 hsame) hne
  · intro h
    rcases h with h | h
    · exact h.name_eq_name
    · exact h.name_eq_name.symm

/-! ### Sequences of operations -/

/-- The named automata that come about by operations on names and behind them. -/
inductive Edited : NamedAutomaton → Prop where
  | singleton (start : String) : Edited (singleton start)
  | read {text : String} {L : NamedAutomaton} (h : read text = .ok L) : Edited L
  | edit {L : NamedAutomaton} (hL : Edited L) (edit : Edit)
      (himported : ∀ B ∈ edit.imported?, B.WellFormed) : Edited (edit.after L)

namespace Edited

/-- What was edited is well-formed. -/
theorem wellFormed (hL : L.Edited) : L.automaton.WellFormed := by
  induction hL with
  | singleton start => exact .singleton _
  | read h => exact wellFormed_of_read h
  | @edit L _ edit himported ih =>
    cases edit with
    | grow growth =>
      refine growth.wellFormed_after ih fun M hM => himported _ ?_
      exact Option.mem_map_of_mem automaton hM
    | operate op => exact op.wellFormed_after ih himported

/-- Whatever is edited, the labels are those that were asked for. -/
theorem exists_labels_eq (hL : L.Edited) :
    ∃ names, L.labels = (∅ : LabelTable).internAll names := by
  -- The table is only ever changed by asking for names; this needs no bound on their number.
  induction hL with
  | singleton start => exact ⟨[start], rfl⟩
  | read h =>
    obtain ⟨contents, _, rfl⟩ := exists_contents_of_read h
    exact ⟨contents.labels, labels_ofContents⟩
  | @edit L _ edit _ ih =>
    obtain ⟨names, hnames⟩ := ih
    have hadded (more : List String) :
        (L.insertNames more).labels = (∅ : LabelTable).internAll (names ++ more) := by
      rw [labels_insertNames, hnames, LabelTable.internAll_append]
    cases edit with
    | grow growth =>
      cases growth with
      | vertex label => exact ⟨_, hadded [label]⟩
      | unionByName M =>
        rw [Edit.after, Growth.after, labels_unionByName]
        exact ⟨_, hadded _⟩
    | operate op => exact ⟨names, hnames⟩

/-- No label is given twice, be there enough identifiers or not. -/
theorem nodup_labels (hL : L.Edited) : L.labels.labels.Nodup := by
  obtain ⟨names, hnames⟩ := hL.exists_labels_eq
  rw [hnames]
  exact LabelTable.isIndexed_empty.nodup_internAll List.nodup_nil names

end Edited

end NamedAutomaton

end Recognizer
