import Recognizer.NamedAutomaton.Growth
import Recognizer.Proofs.Naming.Reading

/-!
# Vertices and labels grow together

A named automaton that is made or read, and then only changed by operations that name vertices, has
just one vertex for each label: the vertices are the numbers below the number of labels, and the two
sides of the table agree. Each such operation keeps all vertices and labels as they are, whatever
else it adds (`Grown.isTight_extends`).

The only proviso is that identifiers last. A table with more labels than there are identifiers gives
the same vertex to two of them.
-/

namespace Recognizer

namespace NamedAutomaton

variable {L M : NamedAutomaton} {q : Vertex}

/-- An operation that names vertices takes nothing away. -/
theorem Growth.extends_after (L : NamedAutomaton) (growth : Growth) :
    (growth.after L).Extends L := by
  cases growth with
  | vertex label => exact L.extends_vertex label
  | unionByName M => exact L.extends_unionByName M

/-- Growth preserves well-formedness. -/
theorem Growth.wellFormed_after (hL : L.automaton.WellFormed) (growth : Growth)
    (himported : ∀ M ∈ growth.imported?, M.automaton.WellFormed) :
    (growth.after L).automaton.WellFormed := by
  cases growth with
  | vertex label => exact hL.insertVertex _
  | unionByName M => exact wellFormed_unionByName hL (himported M rfl)

/-- An import keeps vertices and labels together. -/
theorem IsTight.unionByName (hL : L.IsTight) (hM : M.automaton.WellFormed)
    (hfits : (L.unionByName M).Fits) : (L.unionByName M).IsTight := by
  have hnames : (L.withNamesOf M).IsTight := hL.insertNames (fits_withNamesOf hfits)
  refine ⟨hL.toIsLabelled.unionByName hM hfits, fun q hq => ?_⟩
  rw [labels_unionByName] at hq
  exact contains_unionByName.2 (hnames.contains_of_isSome q hq)

/-- What is read has one vertex for each label. -/
theorem isTight_of_read {text : String} (h : read text = .ok L) (hfits : L.Fits) : L.IsTight := by
  obtain ⟨contents, _, rfl⟩ := exists_contents_of_read h
  exact isTight_ofContents hfits

/-- The named automata that come about by naming vertices only. -/
inductive Grown : NamedAutomaton → Prop where
  | singleton (start : String) : Grown (singleton start)
  | read {text : String} {L : NamedAutomaton} (h : read text = .ok L) : Grown L
  | grow {L : NamedAutomaton} (hL : Grown L) (growth : Growth)
      (himported : ∀ M ∈ growth.imported?, Grown M) : Grown (growth.after L)

namespace Grown

/-- What has grown is well-formed, be there enough identifiers or not. -/
theorem wellFormed (hL : L.Grown) : L.automaton.WellFormed := by
  induction hL with
  | singleton start => exact .singleton _
  | read h => exact wellFormed_of_read h
  | grow _ growth _ ih ihimported => exact growth.wellFormed_after ih ihimported

/-- What has grown has one vertex for each label, as long as identifiers last. -/
theorem isTight (hL : L.Grown) (hfits : L.Fits) : L.IsTight := by
  induction hL with
  | singleton start => exact isTight_singleton start
  | read h => exact isTight_of_read h hfits
  | @grow L _ growth himported ih _ =>
    have htight := ih ((growth.extends_after L).fits hfits)
    cases growth with
    | vertex label => exact htight.vertex hfits
    | unionByName M => exact htight.unionByName (himported M rfl).wellFormed hfits

/-- What has grown is well-formed, its vertices are the numbers below the number of labels, the
labels are distinct and looked up by the vertices that they are read off from. Whatever names
vertices next keeps all vertices with their names, and all labels with their vertices. -/
theorem isTight_extends (hL : L.Grown) (hfits : L.labels.size ≤ UInt32.size) :
    L.automaton.WellFormed ∧
      (∀ q, L.automaton.contains q = true ↔ q.toNat < L.labels.size) ∧
      L.labels.labels.Nodup ∧
      (∀ label q, L.labels.vertex? label = some q ↔ L.labels.labelOf? q = some label) ∧
      ∀ growth : Growth,
        (∀ q, L.automaton.contains q = true → (growth.after L).automaton.contains q = true ∧
          (growth.after L).name q = L.name q) ∧
        (∀ label q, L.labels.labelOf? q = some label →
          (growth.after L).labels.labelOf? q = some label) ∧
        ∀ label q, L.labels.vertex? label = some q →
          (growth.after L).labels.vertex? label = some q := by
  have htight := hL.isTight hfits
  refine ⟨htight.wellFormed, fun q => htight.contains_iff, htight.isConsistent.nodup,
    htight.isConsistent.vertex?_eq_some_iff, fun growth => ?_⟩
  have hextends := growth.extends_after L
  refine ⟨fun q hq => ⟨hextends.contains q hq, ?_⟩, fun label q => ?_, ?_⟩
  · exact hextends.name_eq (htight.isSome_labelOf? q hq)
  · exact hextends.labels.labelOf?_eq_some
  · exact hextends.labels.vertex?_eq_some

/-- A step, and a further vertex. -/
def namedStep : NamedAutomaton :=
  (Growth.vertex "r").after (ofContents ⟨['p'], [.finish ['q'],
    .transition ⟨['p'], some 'a', ['q']⟩]⟩)

/-- Two steps, whose names overlap with those of the other. -/
def overlappingSteps : NamedAutomaton :=
  (Growth.unionByName (ofContents ⟨['q'], [.transition ⟨['q'], none, ['s']⟩]⟩)).after namedStep

/-- The overlapping steps are grown. -/
theorem grown_overlappingSteps : overlappingSteps.Grown := by
  have hstep : NamedAutomaton.read "p\n\nq\n\np q a\n" =
      .ok (ofContents ⟨['p'], [.finish ['q'], .transition ⟨['p'], some 'a', ['q']⟩]⟩) := rfl
  have himported : NamedAutomaton.read "q\n\n\nq s\n" =
      .ok (ofContents ⟨['q'], [.transition ⟨['q'], none, ['s']⟩]⟩) := rfl
  have hfurther : namedStep.Grown := (Grown.read hstep).grow (.vertex "r") nofun
  refine hfurther.grow (.unionByName _) fun M hM => ?_
  cases hM
  exact .read himported

/-- Four labels were asked for, and there are four vertices. -/
theorem isTight_extends_overlappingSteps :
    overlappingSteps.Grown ∧ overlappingSteps.labels.size ≤ UInt32.size ∧
      overlappingSteps.labels.labels = ["p", "q", "r", "s"] ∧
      overlappingSteps.automaton.contains 3 = true ∧
      overlappingSteps.automaton.contains 4 = false ∧
      ((Growth.vertex "t").after overlappingSteps).name 3 = overlappingSteps.name 3 := by
  have hlabels : overlappingSteps.labels.labels = ["p", "q", "r", "s"] := by decide +kernel
  have hsize : overlappingSteps.labels.size = 4 := by rw [LabelTable.size, hlabels]; rfl
  have hfits : overlappingSteps.labels.size ≤ UInt32.size := by rw [hsize]; decide
  obtain ⟨_, hcontains, _, _, hgrowth⟩ := isTight_extends grown_overlappingSteps hfits
  have hlast : overlappingSteps.automaton.contains 3 = true := by
    rw [hcontains, hsize]
    decide
  refine ⟨grown_overlappingSteps, hfits, hlabels, hlast, ?_, ((hgrowth _).1 3 hlast).2⟩
  rw [Bool.eq_false_iff, ne_eq, hcontains, hsize]
  decide

end Grown

end NamedAutomaton

end Recognizer
