import Mathlib.Data.List.Perm.Subperm
import Recognizer.Proofs.Naming.Matching
import Recognizer.Proofs.Naming.Reading

/-!
# Documents written by names read back

Writing takes from an automaton what is seen of it by names, apart from the vertices that nothing
mentions (`isDescribedBy_contents`). Reading gives an automaton that is described by the same contents,
so both count as equal (`IsDescribedBy.beq`). The lines are sorted by name and vertices are numbered
as they come, hence the identifiers need not be the old ones.

No label is lost for lack of identifiers, because there are at most as many names as vertices
(`fits_ofContents_contents`).
-/

namespace Recognizer

open Std Text Document

/-- There are not more vertices than identifiers. -/
theorem Automaton.length_vertices_le (A : Automaton) : A.vertices.length ≤ UInt32.size := by
  have hnodup : (A.vertices.map UInt32.toNat).Nodup :=
    ExtTreeMap.nodup_keys.map fun _ _ => UInt32.toNat_inj.1
  have hsub : A.vertices.map UInt32.toNat ⊆ List.range UInt32.size := by
    intro n hn
    obtain ⟨q, _, rfl⟩ := List.mem_map.1 hn
    exact List.mem_range.2 q.toNat_lt_size
  have hle := (List.subperm_of_subset hnodup hsub).length_le
  rwa [List.length_map, List.length_range] at hle

namespace NamedAutomaton

variable {L M : NamedAutomaton} {name text : String} {t : Transition String}

/-! ### What is written -/

/-- Whether all names and symbols can be written on their lines. -/
structure IsWritable (L : NamedAutomaton) : Prop where
  isName_name : ∀ q, L.automaton.contains q = true → IsName (L.name q).toList
  isWritable_automaton : L.automaton.IsWritable

/-- The writer refuses nothing else, and what it writes is the document. -/
theorem write_eq_ok_iff : L.write = .ok text ↔ L.IsWritable ∧ toString L = text := by
  have hnames : L.unwritableName? = none ↔
      ∀ q, L.automaton.contains q = true → IsName (L.name q).toList := by
    simp [unwritableName?, List.find?_eq_none, isName_toList_iff, Automaton.mem_vertices]
  have hwritable : L.IsWritable ↔
      L.unwritableName? = none ∧ L.automaton.unwritableSymbol? = none := by
    rw [hnames, Automaton.unwritableSymbol?_eq_none_iff]
    exact ⟨fun h => ⟨h.1, h.2⟩, fun h => ⟨h.1, h.2⟩⟩
  rw [hwritable, write]
  cases L.unwritableName? with
  | some label => simp
  | none =>
    cases L.automaton.unwritableSymbol? with
    | some c => simp
    | none => simp

/-- What the document of an automaton with named vertices states. -/
def contents (L : NamedAutomaton) : Contents where
  start := L.startName.toList
  statements := (L.finishNames.toList.map String.toList).map Statement.finish ++
    (L.transitionsByName.toList.map (Transition.rename String.toList)).map Statement.transition

/-- The finishes that are written are those seen by names. -/
theorem finish_mem_contents :
    .finish name.toList ∈ L.contents.statements ↔ name ∈ L.finishNames := by
  simp [contents, String.toList_inj, -mem_finishNames]

/-- The transitions that are written are those seen by names. -/
theorem transition_mem_contents :
    .transition (t.rename String.toList) ∈ L.contents.statements ↔ t ∈ L.transitionsByName := by
  have hrename (u : Transition String) :
      u.rename String.toList = t.rename String.toList ↔ u = t := by
    cases u
    cases t
    simp [Transition.rename, String.toList_inj]
  simp [contents, hrename, -mem_transitionsByName]

/-- The labels that the document asks for are the names that it mentions. -/
theorem mem_labels_contents :
    name ∈ L.contents.labels ↔ name = L.startName ∨ name ∈ L.finishNames ∨
      ∃ t ∈ L.transitionsByName, name = t.source ∨ name = t.target := by
  simp [Contents.labels, contents, Statement.labels, Transition.rename, -mem_finishNames, -mem_transitionsByName]

/-! ### Unmentioned vertices -/

/-- The automaton without the vertices that its document does not mention. -/
def dropUnmentioned (L : NamedAutomaton) : NamedAutomaton :=
  { L with automaton := L.automaton.dropUnmentioned }

/-- Vertices that nothing mentions are no finishes. -/
theorem finishNames_dropUnmentioned : L.dropUnmentioned.finishNames = L.finishNames := rfl

/-- Vertices that nothing mentions have no transitions. -/
theorem transitionsByName_dropUnmentioned :
    L.dropUnmentioned.transitionsByName = L.transitionsByName := by
  apply ExtTreeSet.ext_mem
  intro t
  simp only [mem_transitionsByName, Automaton.mem_transitions_iff]
  simp only [dropUnmentioned, Automaton.mem_successors_dropUnmentioned]
  rfl

/-- The names of the mentioned vertices are those that the document asks for. -/
theorem mem_vertexNames_dropUnmentioned (hwell : L.automaton.WellFormed) :
    name ∈ L.dropUnmentioned.vertexNames ↔ name ∈ L.contents.labels := by
  have hmentions : name ∈ L.dropUnmentioned.vertexNames ↔
      ∃ q, L.automaton.mentions q = true ∧ L.name q = name := by
    rw [mem_vertexNames]
    apply exists_congr
    intro q
    rw [dropUnmentioned, Automaton.contains_dropUnmentioned,
      and_iff_right_of_imp hwell.contains_of_mentions]
    rfl
  rw [hmentions, mem_labels_contents]
  simp only [Automaton.mentions_iff, mem_finishNames, mem_transitionsByName]
  grind [startName, Transition.rename]

/-- Apart from the unmentioned vertices, the contents are all that is seen by names. -/
theorem isDescribedBy_contents (hwell : L.automaton.WellFormed) :
    L.dropUnmentioned.IsDescribedBy L.contents where
  startName_eq := String.ofList_toList.symm
  mem_vertexNames_iff _ := mem_vertexNames_dropUnmentioned hwell
  mem_finishNames_iff name := by
    rw [finishNames_dropUnmentioned, finish_mem_contents]
  mem_transitionsByName_iff t := by
    rw [transitionsByName_dropUnmentioned, transition_mem_contents]

/-- Automata that are described by the same contents count as equal. -/
theorem IsDescribedBy.beq {contents : Contents} (hL : L.IsDescribedBy contents)
    (hM : M.IsDescribedBy contents) : (L == M) = true := by
  have hvertices : L.vertexNames = M.vertexNames := by
    apply ExtTreeSet.ext_mem
    intro name
    rw [hL.mem_vertexNames_iff, hM.mem_vertexNames_iff]
  have hfinishes : L.finishNames = M.finishNames := by
    apply ExtTreeSet.ext_mem
    intro name
    rw [hL.mem_finishNames_iff, hM.mem_finishNames_iff]
  have htransitions : L.transitionsByName = M.transitionsByName := by
    apply ExtTreeSet.ext_mem
    intro t
    rw [hL.mem_transitionsByName_iff, hM.mem_transitionsByName_iff]
  exact beq_iff.2 ⟨hL.startName_eq.trans hM.startName_eq.symm, hvertices, hfinishes, htransitions⟩

/-! ### Writing and reading -/

/-- Reading what an automaton is described by takes no more labels than it has vertices. -/
theorem IsDescribedBy.fits_ofContents {contents : Contents} (h : L.IsDescribedBy contents) :
    (ofContents contents).Fits := by
  have hnodup : (ofContents contents).labels.labels.Nodup := by
    rw [labels_ofContents]
    exact LabelTable.isIndexed_empty.nodup_internAll List.nodup_nil _
  -- Several vertices may share a name, but no label is the name of none.
  have hsub : (ofContents contents).labels.labels ⊆ L.automaton.vertices.map L.name := by
    intro label hlabel
    rw [mem_labels_ofContents, ← h.mem_vertexNames_iff, mem_vertexNames] at hlabel
    obtain ⟨q, hq, rfl⟩ := hlabel
    exact List.mem_map_of_mem (Automaton.mem_vertices.2 hq)
  have hle := (List.subperm_of_subset hnodup hsub).length_le
  rw [List.length_map] at hle
  exact Nat.le_trans hle L.automaton.length_vertices_le

/-- For the names of an automaton there are always enough identifiers. -/
theorem fits_ofContents_contents (hwell : L.automaton.WellFormed) :
    (ofContents L.contents).Fits :=
  (isDescribedBy_contents hwell).fits_ofContents

/-- The document of an automaton that can be written has its contents. -/
theorem ofLines?_toString (hwell : L.automaton.WellFormed) (hL : L.IsWritable) :
    Contents.ofLines? (lines (toString L).toList) = some L.contents := by
  have hname {label : String} (h : label ∈ L.contents.labels) : IsName label.toList := by
    rw [← mem_vertexNames_dropUnmentioned hwell, mem_vertexNames] at h
    obtain ⟨q, hq, rfl⟩ := h
    exact hL.isName_name q (Automaton.contains_dropUnmentioned.1 hq).1
  have hstart : IsName L.startName.toList := hname (mem_labels_contents.2 (Or.inl rfl))
  have hfinishes : ∀ label ∈ L.finishNames.toList.map String.toList, IsName label := by
    rw [List.forall_mem_map]
    intro label hlabel
    exact hname (mem_labels_contents.2 (Or.inr (Or.inl (ExtTreeSet.mem_toList.1 hlabel))))
  have htransitions : ∀ t ∈ L.transitionsByName.toList.map (Transition.rename String.toList),
      IsName t.source ∧ IsName t.target := by
    rw [List.forall_mem_map]
    intro t ht
    rw [ExtTreeSet.mem_toList] at ht
    have hends {label : String} (h : label = t.source ∨ label = t.target) :
        IsName label.toList := hname (mem_labels_contents.2 (Or.inr (Or.inr ⟨t, ht, h⟩)))
    exact ⟨hends (Or.inl rfl), hends (Or.inr rfl)⟩
  have hsymbols : ∀ t ∈ L.transitionsByName.toList.map (Transition.rename String.toList),
      ∀ c ∈ t.symbol, isLineBreak c = false := by
    rw [List.forall_mem_map]
    intro t ht
    rw [ExtTreeSet.mem_toList, mem_transitionsByName] at ht
    obtain ⟨u, hu, rfl⟩ := ht
    exact hL.isWritable_automaton u hu
  have htext : (toString L).toList = L.document := String.toList_ofList
  rw [htext, document, ofLines?_layout hstart hfinishes htransitions hsymbols]
  rfl

/-- What can be written reads back to the automaton of the contents. -/
theorem read_toString (hwell : L.automaton.WellFormed) (hL : L.IsWritable) :
    read (toString L) = .ok (ofContents L.contents) := by
  rw [← toOption_eq_some_iff, toOption_read, ofLines?_toString hwell hL, Option.map_some]

/-- The automaton of the contents counts as equal to what was written, less the unmentioned
vertices. -/
theorem beq_ofContents_contents (hwell : L.automaton.WellFormed) :
    (L.dropUnmentioned == ofContents L.contents) = true :=
  (isDescribedBy_contents hwell).beq (isDescribedBy_ofContents (fits_ofContents_contents hwell))

/-- What is read from a written document is labelled throughout. -/
theorem isTight_ofContents_contents (hwell : L.automaton.WellFormed) :
    (ofContents L.contents).IsTight :=
  isTight_ofContents (fits_ofContents_contents hwell)

/-- If the names of the mentioned vertices are distinct, names tell which vertex became which. -/
theorem isIsomorphism_contents (hwell : L.automaton.WellFormed)
    (hdistinct : Set.InjOn L.name {q | L.automaton.mentions q = true}) :
    Automaton.IsIsomorphism (L.matchNames (ofContents L.contents)) L.automaton.dropUnmentioned
        (ofContents L.contents).automaton ∧
      ∀ q, L.automaton.mentions q = true →
        (ofContents L.contents).name (L.matchNames (ofContents L.contents) q) = L.name q := by
  have hdropped : L.dropUnmentioned.HasDistinctNames := by
    intro q hq r hr hname
    exact hdistinct (Automaton.contains_dropUnmentioned.1 hq).2
      (Automaton.contains_dropUnmentioned.1 hr).2 hname
  have hread := isTight_ofContents_contents hwell
  obtain ⟨hiso, hnames⟩ := isIsomorphism_matchNames hdropped hwell.dropUnmentioned
    hread.toIsLabelled.hasDistinctNames hread.wellFormed (beq_ofContents_contents hwell)
  refine ⟨hiso, fun q hq => hnames q ?_⟩
  exact Automaton.contains_dropUnmentioned.2 ⟨hwell.contains_of_mentions hq, hq⟩

/-- Whatever the table of labels, a document that is written reads back. The start, the finishes and
the transitions have the same names as before, and no further names are those of vertices, so nothing
changes by names if every vertex is mentioned. If the names of the mentioned vertices are distinct,
only their identifiers may change. -/
theorem read_write_roundTrip (L : NamedAutomaton) (hwell : L.automaton.WellFormed) (text : String)
    (hwrite : L.write = .ok text) :
    ∃ M, read text = .ok M ∧ M.startName = L.startName ∧ M.finishNames = L.finishNames ∧
      M.transitionsByName = L.transitionsByName ∧
      (∀ name, name ∈ M.vertexNames ↔ name = L.startName ∨ name ∈ L.finishNames ∨
        ∃ t ∈ L.transitionsByName, name = t.source ∨ name = t.target) ∧
      ((∀ q, L.automaton.contains q = true → L.automaton.mentions q = true) →
        (M == L) = true) ∧
      (Set.InjOn L.name {q | L.automaton.mentions q = true} →
        Automaton.IsIsomorphism (L.matchNames M) L.automaton.dropUnmentioned M.automaton ∧
          ∀ q, L.automaton.mentions q = true → M.name (L.matchNames M q) = L.name q) := by
  obtain ⟨hwritable, rfl⟩ := write_eq_ok_iff.1 hwrite
  -- All that is claimed by names is read off from the equality of what was written and what is read.
  have hequal := beq_ofContents_contents hwell
  obtain ⟨hstart, hvertices, hfinishes, htransitions⟩ := beq_iff.1 hequal
  refine ⟨ofContents L.contents, read_toString hwell hwritable, hstart.symm, hfinishes.symm, ?_,
    fun name => ?_, fun hmentions => ?_, fun hdistinct => ?_⟩
  · rw [← htransitions, transitionsByName_dropUnmentioned]
  · rw [← hvertices, mem_vertexNames_dropUnmentioned hwell, mem_labels_contents]
  · have hsame : L.dropUnmentioned = L := by
      rw [dropUnmentioned, hwell.dropUnmentioned_eq_self hmentions]
    rw [hsame, beq_iff] at hequal
    obtain ⟨hstart, hvertices, hfinishes, htransitions⟩ := hequal
    exact beq_iff.2 ⟨hstart.symm, hvertices.symm, hfinishes.symm, htransitions.symm⟩
  · exact isIsomorphism_contents hwell hdistinct

/-- A step on a space, from the second label of a table that cannot be searched to the first one. -/
def spacedStep : NamedAutomaton where
  automaton := .ofFacts 1 [.finish 0, .transition ⟨1, some ' ', 0⟩]
  labels := ⟨["p", "q"], ∅⟩

/-- The step reads back between other identifiers: its start comes first. -/
theorem read_write_roundTrip_spacedStep :
    spacedStep.automaton.WellFormed ∧ spacedStep.write = .ok "q\n\np\n\nq p  \n" ∧
      ∃ M, read "q\n\np\n\nq p  \n" = .ok M ∧ (M == spacedStep) = true ∧
        spacedStep.automaton.start = 1 ∧ M.automaton.start = 0 := by
  have hwell : spacedStep.automaton.WellFormed := Automaton.wellFormed_ofFacts
  have hwrite : spacedStep.write = .ok "q\n\np\n\nq p  \n" := rfl
  have hall : spacedStep.automaton.vertices.all spacedStep.automaton.mentions = true := by
    decide +kernel
  have hmentions : ∀ q, spacedStep.automaton.contains q = true →
      spacedStep.automaton.mentions q = true := by
    intro q hq
    exact List.all_eq_true.1 hall q (Automaton.mem_vertices.2 hq)
  obtain ⟨M, hread, _, _, _, _, hequal, _⟩ := read_write_roundTrip spacedStep hwell _ hwrite
  have hstart : M.automaton.start = 0 := by
    have hcontents : read "q\n\np\n\nq p  \n" =
        .ok (ofContents ⟨['q'], [.finish ['p'], .transition ⟨['q'], some ' ', ['p']⟩]⟩) := rfl
    rw [hread] at hcontents
    cases hcontents
    rfl
  exact ⟨hwell, hwrite, M, hread, hequal hmentions, rfl, hstart⟩

end NamedAutomaton

end Recognizer
