import Recognizer.Document.Writer
import Recognizer.Proofs.Naming.Matching
import Recognizer.Proofs.Naming.Reading

/-!
# Equality by names

Automata with named vertices are compared by four sets of names, without regard to identifiers. Where
every vertex has a label and no two have the same one, these sets tell everything: two automata count
as equal exactly if their vertices can be paired, equal labels with equal labels, so that start,
finishes and transitions agree (`beq_iff_exists_isRenumbering`). They accept the same words then, and
as documents are in the order of names, they are written alike.

It takes labels to tell vertices apart. If two vertices go by one name, the sets do not say which of
them a transition belongs to.
-/

namespace Recognizer

open Std

namespace NamedAutomaton

variable {L M : NamedAutomaton} {f : Vertex → Vertex} {q : Vertex}

/-- Every vertex has a label, and distinct vertices have distinct labels. -/
structure IsIdentified (L : NamedAutomaton) : Prop where
  isSome_labelOf? : ∀ q, L.automaton.contains q = true → (L.labels.labelOf? q).isSome = true
  injOn_labelOf? : Set.InjOn L.labels.labelOf? {q | L.automaton.contains q = true}

/-- The vertices of `L` get other identifiers in `M`, and keep their labels. -/
structure IsRenumbering (f : Vertex → Vertex) (L M : NamedAutomaton) : Prop extends
    Automaton.IsIsomorphism f L.automaton M.automaton where
  labelOf?_eq : ∀ q, L.automaton.contains q = true → M.labels.labelOf? (f q) = L.labels.labelOf? q

namespace IsIdentified

/-- The name of a vertex is its label. -/
theorem labelOf?_eq_some_name (hL : L.IsIdentified) (hq : L.automaton.contains q = true) :
    L.labels.labelOf? q = some (L.name q) := by
  obtain ⟨label, hlabel⟩ := Option.isSome_iff_exists.1 (hL.isSome_labelOf? q hq)
  rw [name, hlabel, Option.getD_some]

/-- Identified vertices have distinct names. -/
theorem hasDistinctNames (hL : L.IsIdentified) : L.HasDistinctNames := by
  intro q hq r hr hname
  apply hL.injOn_labelOf? hq hr
  rw [hL.labelOf?_eq_some_name hq, hL.labelOf?_eq_some_name hr, hname]

end IsIdentified

/-- In a labelled automaton labels tell vertices apart. -/
theorem IsLabelled.isIdentified (hL : L.IsLabelled) : L.IsIdentified where
  isSome_labelOf? := hL.isSome_labelOf?
  injOn_labelOf? := by
    intro q hq r _ hsame
    obtain ⟨label, hlabel⟩ := Option.isSome_iff_exists.1 (hL.isSome_labelOf? q hq)
    have hvertex := (hL.isConsistent.vertex?_eq_some_iff label q).2 hlabel
    rw [(hL.isConsistent.vertex?_eq_some_iff label r).2 (hsame ▸ hlabel), Option.some.injEq] at hvertex
    exact hvertex.symm

/-! ### Equal automata are written alike -/

/-- Equal named automata have the same text. -/
theorem toString_eq_of_beq (h : (L == M) = true) : toString L = toString M := by
  obtain ⟨hstart, _, hfinishes, htransitions⟩ := beq_iff.1 h
  have hdocument : L.document = M.document := by
    rw [document, document, hstart, hfinishes, htransitions]
  exact congrArg String.ofList hdocument

/-! ### Renumbered automata are equal -/

namespace IsRenumbering

section Names

variable (h : IsRenumbering f L M) (hL : L.IsIdentified)
include h hL

/-- A vertex keeps its name. -/
theorem name_eq (hq : L.automaton.contains q = true) : M.name (f q) = L.name q := by
  rw [name, h.labelOf?_eq q hq, hL.labelOf?_eq_some_name hq, Option.getD_some]

/-- Equal named automata have the same vertex names. -/
theorem vertexNames_eq : L.vertexNames = M.vertexNames := by
  refine ExtTreeSet.ext_mem fun name => ?_
  rw [mem_vertexNames, mem_vertexNames]
  constructor
  · rintro ⟨q, hq, rfl⟩
    exact ⟨f q, h.bijOn.mapsTo hq, h.name_eq hL hq⟩
  · rintro ⟨r, hr, rfl⟩
    obtain ⟨q, hq, rfl⟩ := h.bijOn.surjOn hr
    exact ⟨q, hq, (h.name_eq hL hq).symm⟩

variable (hwellL : L.automaton.WellFormed) (hwellM : M.automaton.WellFormed)
include hwellL hwellM

/-- Equal named automata have the same finish names. -/
theorem finishNames_eq : L.finishNames = M.finishNames := by
  refine ExtTreeSet.ext_mem fun name => ?_
  rw [mem_finishNames, mem_finishNames]
  constructor
  · rintro ⟨q, hq, rfl⟩
    have hcontains := hwellL.contains_finish q hq
    exact ⟨f q, (h.isFinish_iff q hcontains).2 hq, h.name_eq hL hcontains⟩
  · rintro ⟨r, hr, rfl⟩
    obtain ⟨q, hq, rfl⟩ := h.bijOn.surjOn (hwellM.contains_finish r hr)
    exact ⟨q, (h.isFinish_iff q hq).1 hr, (h.name_eq hL hq).symm⟩

/-- Equal named automata have the same named transitions. -/
theorem transitionsByName_eq : L.transitionsByName = M.transitionsByName := by
  refine ExtTreeSet.ext_mem fun t => ?_
  rw [mem_transitionsByName, mem_transitionsByName]
  constructor
  · rintro ⟨u, hu, rfl⟩
    obtain ⟨hsource, htarget⟩ := hwellL.contains_ends hu
    refine ⟨u.rename f, ?_, ?_⟩
    · rw [Automaton.mem_transitions_iff] at hu ⊢
      exact (h.mem_successors_iff _ _ _ hsource htarget).2 hu
    · rw [Transition.rename, Transition.rename, Transition.rename, h.name_eq hL hsource,
        h.name_eq hL htarget]
  · rintro ⟨v, hv, rfl⟩
    obtain ⟨hsource, htarget⟩ := hwellM.contains_ends hv
    obtain ⟨q, hq, hqv⟩ := h.bijOn.surjOn hsource
    obtain ⟨r, hr, hrv⟩ := h.bijOn.surjOn htarget
    refine ⟨⟨q, v.symbol, r⟩, ?_, ?_⟩
    · rw [Automaton.mem_transitions_iff] at hv ⊢
      rw [← hqv, ← hrv] at hv
      exact (h.mem_successors_iff _ _ _ hq hr).1 hv
    · rw [Transition.rename, Transition.rename, ← hqv, ← hrv, h.name_eq hL hq, h.name_eq hL hr]

/-- Other identifiers make no difference by names. -/
theorem beq : (L == M) = true := by
  have hstart : L.startName = M.startName := by
    rw [startName, startName, ← h.start, h.name_eq hL hwellL.contains_start]
  exact beq_iff.2 ⟨hstart, h.vertexNames_eq hL, h.finishNames_eq hL hwellL hwellM,
    h.transitionsByName_eq hL hwellL hwellM⟩

end Names

end IsRenumbering

/-- Equal automata differ in identifiers only, if labels tell vertices apart on both sides. -/
theorem isRenumbering_matchNames (hL : L.IsIdentified) (hwellL : L.automaton.WellFormed)
    (hM : M.IsIdentified) (hwellM : M.automaton.WellFormed) (h : (L == M) = true) :
    IsRenumbering (L.matchNames M) L M := by
  obtain ⟨hiso, hnames⟩ :=
    isIsomorphism_matchNames hL.hasDistinctNames hwellL hM.hasDistinctNames hwellM h
  refine ⟨hiso, fun q hq => ?_⟩
  rw [hM.labelOf?_eq_some_name (hiso.bijOn.mapsTo hq), hnames q hq, hL.labelOf?_eq_some_name hq]

/-- If every vertex has a label of its own, two automata count as equal exactly if one is the other
under other identifiers, with the labels, the start, the finishes and the transitions kept both ways.
Equal automata accept the same words and are written alike. -/
theorem beq_iff_exists_isRenumbering (L M : NamedAutomaton) (hwellL : L.automaton.WellFormed)
    (hL : L.IsIdentified) (hwellM : M.automaton.WellFormed) (hM : M.IsIdentified) :
    ((L == M) = true ↔ ∃ f, IsRenumbering f L M) ∧
      ((L == M) = true →
        (∀ w, L.automaton.Accepts w ↔ M.automaton.Accepts w) ∧ toString L = toString M) := by
  refine ⟨⟨fun h => ?_, ?_⟩, fun h => ⟨fun w => ?_, toString_eq_of_beq h⟩⟩
  · exact ⟨_, isRenumbering_matchNames hL hwellL hM hwellM h⟩
  · rintro ⟨f, hf⟩
    exact hf.beq hL hwellL hwellM
  · exact (isRenumbering_matchNames hL hwellL hM hwellM h).accepts_iff hwellL hwellM

/-- Two steps on one letter from `z`, whose ends are numbered in the given order. -/
def namedFork (first second : List Char) : NamedAutomaton :=
  ofContents ⟨['z'], [.transition ⟨['z'], some 'x', first⟩, .transition ⟨['z'], some 'x', second⟩]⟩

/-- In whatever order the ends are numbered, the fork is the same. With one end it is another. -/
theorem beq_iff_exists_isRenumbering_fork :
    (namedFork ['y'] ['a']).IsIdentified ∧ (namedFork ['a'] ['y']).IsIdentified ∧
      toString (namedFork ['y'] ['a']) = toString (namedFork ['a'] ['y']) ∧
      (∃ f, IsRenumbering f (namedFork ['y'] ['a']) (namedFork ['a'] ['y']) ∧ f 1 = 2) ∧
      ¬∃ f, IsRenumbering f (namedFork ['y'] ['a']) (namedFork ['a'] ['a']) := by
  have hfork {first second : List Char} (hfits : (namedFork first second).Fits) :
      (namedFork first second).IsLabelled := (isTight_ofContents hfits).toIsLabelled
  have hleft : (namedFork ['y'] ['a']).IsLabelled := hfork (by unfold Fits; decide +kernel)
  have hright : (namedFork ['a'] ['y']).IsLabelled := hfork (by unfold Fits; decide +kernel)
  have hone : (namedFork ['a'] ['a']).IsLabelled := hfork (by unfold Fits; decide +kernel)
  have hequal : (namedFork ['y'] ['a'] == namedFork ['a'] ['y']) = true := by decide +kernel
  obtain ⟨hrenumbered, hsame⟩ := beq_iff_exists_isRenumbering _ _ hleft.wellFormed
    hleft.isIdentified hright.wellFormed hright.isIdentified
  obtain ⟨hdiffers, _⟩ := beq_iff_exists_isRenumbering _ _ hleft.wellFormed
    hleft.isIdentified hone.wellFormed hone.isIdentified
  obtain ⟨f, hf⟩ := hrenumbered.1 hequal
  refine ⟨hleft.isIdentified, hright.isIdentified, (hsame hequal).2, ⟨f, hf, ?_⟩, ?_⟩
  · have hlabel := hf.labelOf?_eq 1 (by decide +kernel)
    have hy : (namedFork ['a'] ['y']).labels.labelOf? 2 = (namedFork ['y'] ['a']).labels.labelOf? 1 := by
      decide +kernel
    exact hright.isIdentified.injOn_labelOf? (hf.bijOn.mapsTo (by decide +kernel))
      (by decide +kernel) (hlabel.trans hy.symm)
  · rw [← hdiffers]
    decide +kernel

end NamedAutomaton

end Recognizer
