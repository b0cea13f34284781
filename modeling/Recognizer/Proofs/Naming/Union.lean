import Recognizer.Proofs.Naming.Reading

/-!
# Unions by name

An import along names gives just the union of what is seen by names, with the start of the receiver
(`isUnionOf_unionByName`). The receiver has to be labelled: a vertex of it without label might be
taken for that of the next label that is asked for. Nothing of this kind is asked of the imported
automaton. Its vertices may lack labels, and several of them may have one name; then they become one
vertex.

So unions are idempotent and associative, and commutative but for the start, as far as names can tell
(`unionByName_laws`).
-/

namespace Recognizer

open Std

section Sets

variable {α : Type} {cmp : α → α → Ordering} [TransCmp cmp] [LawfulEqCmp cmp]
variable (s t u : ExtTreeSet α cmp)

/-- The order in a union does not matter. -/
theorem union_comm : s ∪ t = t ∪ s :=
  ExtTreeSet.ext_mem fun _ => by
    rw [ExtTreeSet.mem_union_iff, ExtTreeSet.mem_union_iff, or_comm]

/-- The grouping in a union does not matter. -/
theorem union_assoc : s ∪ t ∪ u = s ∪ (t ∪ u) :=
  ExtTreeSet.ext_mem fun _ => by
    simp only [ExtTreeSet.mem_union_iff, or_assoc]

end Sets

namespace NamedAutomaton

variable {K L M N : NamedAutomaton} {name : String} {q : Vertex}

/-- `K` is what `L` and `M` are together, seen by names, and starts where `L` does. -/
structure IsUnionOf (K L M : NamedAutomaton) : Prop where
  startName : K.startName = L.startName
  vertexNames : K.vertexNames = L.vertexNames ∪ M.vertexNames
  finishNames : K.finishNames = L.finishNames ∪ M.finishNames
  transitionsByName : K.transitionsByName = L.transitionsByName ∪ M.transitionsByName

section Union

variable (hL : L.IsLabelled) (hM : M.automaton.WellFormed) (hfits : (L.unionByName M).Fits)
include hL hfits

/-- The vertex names of a union are those of both sides. -/
theorem mem_vertexNames_unionByName :
    name ∈ (L.unionByName M).vertexNames ↔ name ∈ L.vertexNames ∨ name ∈ M.vertexNames := by
  have hsame : name ∈ (L.unionByName M).vertexNames ↔ name ∈ (L.withNamesOf M).vertexNames := by
    simp only [mem_vertexNames, contains_unionByName, name_unionByName]
  rw [hsame, withNamesOf, hL.mem_vertexNames_insertNames (fits_withNamesOf hfits),
    mem_vertexNames (L := M), List.mem_map]
  simp only [Automaton.mem_vertices]

include hM

/-- The finish names of a union are those of both sides. -/
theorem mem_finishNames_unionByName :
    name ∈ (L.unionByName M).finishNames ↔ name ∈ L.finishNames ∨ name ∈ M.finishNames := by
  rw [hL.mem_finishNames_iff_of_extends (extends_unionByName L M), mem_finishNames, mem_finishNames]
  simp only [isFinish_unionByName, or_and_right, exists_or]
  apply or_congr_right
  constructor
  · intro h
    obtain ⟨_, ⟨q, hq, rfl⟩, rfl⟩ := h
    exact ⟨q, hq, (hL.name_importMap hfits (hM.contains_finish q hq)).symm⟩
  · intro h
    obtain ⟨q, hq, rfl⟩ := h
    exact ⟨_, ⟨q, hq, rfl⟩, hL.name_importMap hfits (hM.contains_finish q hq)⟩

/-- The named transitions of a union are those of both sides. -/
theorem mem_transitionsByName_unionByName {t : Transition String} :
    t ∈ (L.unionByName M).transitionsByName ↔
      t ∈ L.transitionsByName ∨ t ∈ M.transitionsByName := by
  have himported {v : Transition Vertex} (hv : v ∈ M.automaton.transitions) :
      (v.rename (L.importMap M)).rename (L.unionByName M).name = v.rename M.name := by
    obtain ⟨hsource, htarget⟩ := hM.contains_ends hv
    simp only [Transition.rename, hL.name_importMap hfits hsource, hL.name_importMap hfits htarget]
  rw [hL.mem_transitionsByName_iff_of_extends (extends_unionByName L M), mem_transitionsByName,
    mem_transitionsByName]
  simp only [mem_transitions_unionByName, or_and_right, exists_or]
  apply or_congr_right
  constructor
  · intro h
    obtain ⟨_, ⟨v, hv, rfl⟩, rfl⟩ := h
    exact ⟨v, hv, (himported hv).symm⟩
  · intro h
    obtain ⟨v, hv, rfl⟩ := h
    exact ⟨_, ⟨v, hv, rfl⟩, himported hv⟩

/-- An import along names gives the union of what is seen by names. -/
theorem isUnionOf_unionByName : (L.unionByName M).IsUnionOf L M where
  startName := hL.startName_eq_of_extends (extends_unionByName L M) start_unionByName
  vertexNames := ExtTreeSet.ext_mem fun name => by
    rw [mem_vertexNames_unionByName hL hfits, ExtTreeSet.mem_union_iff]
  finishNames := ExtTreeSet.ext_mem fun name => by
    rw [mem_finishNames_unionByName hL hM hfits, ExtTreeSet.mem_union_iff]
  transitionsByName := ExtTreeSet.ext_mem fun t => by
    rw [mem_transitionsByName_unionByName hL hM hfits, ExtTreeSet.mem_union_iff]

end Union

/-! ### Laws -/

namespace IsUnionOf

/-- In whatever order two automata are put together, only the start can differ. -/
theorem comm {K' : NamedAutomaton} (h : K.IsUnionOf L M) (h' : K'.IsUnionOf M L) :
    K.vertexNames = K'.vertexNames ∧ K.finishNames = K'.finishNames ∧
      K.transitionsByName = K'.transitionsByName := by
  refine ⟨?_, ?_, ?_⟩
  · rw [h.vertexNames, h'.vertexNames, union_comm]
  · rw [h.finishNames, h'.finishNames, union_comm]
  · rw [h.transitionsByName, h'.transitionsByName, union_comm]

/-- It does not matter which two of three automata are put together first. -/
theorem assoc {P Q R : NamedAutomaton} (hK : K.IsUnionOf L M) (hP : P.IsUnionOf K N)
    (hQ : Q.IsUnionOf M N) (hR : R.IsUnionOf L Q) : (P == R) = true := by
  rw [beq_iff]
  refine ⟨?_, ?_, ?_, ?_⟩
  · rw [hP.startName, hK.startName, hR.startName]
  · rw [hP.vertexNames, hK.vertexNames, hR.vertexNames, hQ.vertexNames, union_assoc]
  · rw [hP.finishNames, hK.finishNames, hR.finishNames, hQ.finishNames, union_assoc]
  · rw [hP.transitionsByName, hK.transitionsByName, hR.transitionsByName, hQ.transitionsByName,
      union_assoc]

end IsUnionOf

/-- Names that have a vertex ask for no further label. -/
theorem labels_insertNames_eq_self {names : List String}
    (h : ∀ name ∈ names, ∃ q, L.labels.vertex? name = some q) :
    (L.insertNames names).labels = L.labels := by
  induction names generalizing L with
  | nil => rfl
  | cons name rest ih =>
    obtain ⟨⟨q, hq⟩, hrest⟩ := List.forall_mem_cons.1 h
    have hsame : (L.vertex name).2.labels = L.labels :=
      congrArg Prod.snd (LabelTable.intern_of_vertex?_eq_some hq)
    rw [insertNames_cons, ih (by rwa [hsame]), hsame]

namespace IsLabelled

variable (hL : L.IsLabelled)
include hL

/-- A vertex is the one that its name stands for. -/
theorem vertex?_name (hq : L.automaton.contains q = true) :
    L.labels.vertex? (L.name q) = some q :=
  (hL.name_eq_iff hq).1 rfl

/-- The own names add no labels. -/
theorem labels_withNamesOf_self : (L.withNamesOf L).labels = L.labels := by
  apply labels_insertNames_eq_self
  rw [List.forall_mem_map]
  intro q hq
  exact ⟨q, hL.vertex?_name (Automaton.mem_vertices.1 hq)⟩

/-- Its own vertices are sent where they are. -/
theorem importMap_self (hq : L.automaton.contains q = true) : L.importMap L q = q := by
  have hvertex := (vertex?_importMap (L := L) hq).1
  rw [hL.labels_withNamesOf_self, hL.vertex?_name hq, Option.some.injEq] at hvertex
  exact hvertex.symm

/-- A union with itself adds no vertices. -/
theorem contains_unionByName_self :
    (L.unionByName L).automaton.contains q = true ↔ L.automaton.contains q = true := by
  rw [contains_unionByName, withNamesOf, contains_insertNames, ← withNamesOf,
    hL.labels_withNamesOf_self]
  apply or_iff_left_of_imp
  intro h
  obtain ⟨name, hname, hvertex⟩ := h
  obtain ⟨p, hp, rfl⟩ := List.mem_map.1 hname
  rw [Automaton.mem_vertices] at hp
  rw [hL.vertex?_name hp, Option.some.injEq] at hvertex
  exact hvertex ▸ hp

/-- A labelled automaton that is imported into itself changes nothing. -/
theorem unionByName_self : L.unionByName L = L := by
  have hautomaton : (L.unionByName L).automaton = L.automaton := by
    apply (wellFormed_unionByName hL.wellFormed hL.wellFormed).ext hL.wellFormed start_unionByName
    · intro q
      rw [Bool.eq_iff_iff, hL.contains_unionByName_self]
    · intro q
      rw [Bool.eq_iff_iff, isFinish_unionByName]
      apply or_iff_left_of_imp
      intro h
      obtain ⟨p, hp, rfl⟩ := h
      rwa [hL.importMap_self (hL.wellFormed.contains_finish p hp)]
    · intro q s
      apply ExtTreeSet.ext_mem
      intro r
      rw [mem_successors_unionByName]
      apply or_iff_left_of_imp
      intro h
      obtain ⟨p, m, hm, rfl, rfl⟩ := h
      rwa [hL.importMap_self (Automaton.contains_of_mem_successors hm),
        hL.importMap_self (hL.wellFormed.contains_target _ _ _ hm)]
  have hlabels : (L.unionByName L).labels = L.labels := by
    rw [labels_unionByName, hL.labels_withNamesOf_self]
  exact congrArg₂ NamedAutomaton.mk hautomaton hlabels

end IsLabelled

/-- An import into a labelled automaton gives the union of the vertices, of the finishes and of the
transitions by name, and keeps the start. An automaton that is imported into itself stays as it is;
which of two automata is imported into the other shows in the start only; and of three automata it
does not matter which two come together first. -/
theorem unionByName_laws (L M : NamedAutomaton) (hL : L.IsLabelled) (hM : M.automaton.WellFormed)
    (hfits : (L.unionByName M).Fits) :
    (L.unionByName M).IsUnionOf L M ∧ (L.unionByName M).IsLabelled ∧ L.unionByName L = L ∧
      (M.IsLabelled → (M.unionByName L).Fits →
        (L.unionByName M).vertexNames = (M.unionByName L).vertexNames ∧
        (L.unionByName M).finishNames = (M.unionByName L).finishNames ∧
        (L.unionByName M).transitionsByName = (M.unionByName L).transitionsByName ∧
        ((L.unionByName M == M.unionByName L) = true ↔ L.startName = M.startName)) ∧
      ∀ N : NamedAutomaton, M.IsLabelled → N.automaton.WellFormed → (M.unionByName N).Fits →
        ((L.unionByName M).unionByName N).Fits → (L.unionByName (M.unionByName N)).Fits →
        ((L.unionByName M).unionByName N == L.unionByName (M.unionByName N)) = true := by
  have hunion := isUnionOf_unionByName hL hM hfits
  have hlabelled := hL.unionByName hM hfits
  refine ⟨hunion, hlabelled, hL.unionByName_self, fun hML hfits' => ?_, ?_⟩
  · have hswapped := isUnionOf_unionByName hML hL.wellFormed hfits'
    obtain ⟨hvertices, hfinishes, htransitions⟩ := hunion.comm hswapped
    refine ⟨hvertices, hfinishes, htransitions, ?_⟩
    rw [beq_iff, hunion.startName, hswapped.startName]
    exact and_iff_left ⟨hvertices, hfinishes, htransitions⟩
  · intro N hML hN hMN hleft hright
    have hinner := isUnionOf_unionByName hML hN hMN
    have houter := isUnionOf_unionByName hL (hML.unionByName hN hMN).wellFormed hright
    exact hunion.assoc (isUnionOf_unionByName hlabelled hN hleft) hinner houter

/-- A step from `p` to `q`, the finish. -/
def forwardStep : NamedAutomaton :=
  ofContents ⟨['p'], [.finish ['q'], .transition ⟨['p'], some 'a', ['q']⟩]⟩

/-- A step from `q` back to `p`. The vertices have the numbers of each other in `forwardStep`. -/
def backwardStep : NamedAutomaton :=
  ofContents ⟨['q'], [.transition ⟨['q'], none, ['p']⟩]⟩

/-- A step between vertices without label, one of which has the number of `p` in `forwardStep`. -/
def unlabelledStep : NamedAutomaton :=
  ⟨((Automaton.singleton 0).insertVertex 7).insertTransition ⟨0, some 'b', 7⟩, ∅⟩

/-- The two steps together form a cycle, which shows where it starts; the step without labels may be
added at any time. -/
theorem unionByName_laws_cycle :
    (forwardStep.unionByName backwardStep).vertexNames = forwardStep.vertexNames ∧
      (forwardStep.unionByName backwardStep == backwardStep.unionByName forwardStep) = false ∧
      ((forwardStep.unionByName backwardStep).unionByName unlabelledStep ==
        forwardStep.unionByName (backwardStep.unionByName unlabelledStep)) = true := by
  have hforward : forwardStep.IsLabelled :=
    (isTight_ofContents (by unfold Fits; decide +kernel)).toIsLabelled
  have hbackward : backwardStep.IsLabelled :=
    (isTight_ofContents (by unfold Fits; decide +kernel)).toIsLabelled
  have hunlabelled : unlabelledStep.automaton.WellFormed :=
    ((Automaton.WellFormed.singleton 0).insertVertex 7).insertTransition
      (Automaton.contains_insertVertex.2 (Or.inr (Automaton.contains_singleton.2 rfl)))
      (Automaton.contains_insertVertex.2 (Or.inl rfl))
  have hfits : (forwardStep.unionByName backwardStep).Fits := by unfold Fits; decide +kernel
  have hfits' : (backwardStep.unionByName forwardStep).Fits := by unfold Fits; decide +kernel
  obtain ⟨hunion, _, _, hcomm, hassoc⟩ :=
    unionByName_laws forwardStep backwardStep hforward hbackward.wellFormed hfits
  refine ⟨?_, ?_, hassoc unlabelledStep hbackward hunlabelled ?_ ?_ ?_⟩
  · have hnames : forwardStep.vertexNames = backwardStep.vertexNames := by decide +kernel
    refine ExtTreeSet.ext_mem fun name => ?_
    rw [hunion.vertexNames, ← hnames, ExtTreeSet.mem_union_iff, or_self]
  · rw [Bool.eq_false_iff, ne_eq, (hcomm hbackward hfits').2.2.2]
    decide +kernel
  all_goals unfold Fits; decide +kernel

end NamedAutomaton

end Recognizer
