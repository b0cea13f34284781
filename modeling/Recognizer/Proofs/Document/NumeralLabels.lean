import Recognizer.Proofs.Document.NamedRoundTrip

/-!
# Numerals as labels

A document that names vertices by numerals can be read both ways. Read by labels, each vertex is named
by its own numeral, but is numbered by the line that mentions it first; and lines are written in the
order of labels then, where `10` comes before `2`. Neither makes a difference in the end. What a
document states does not depend on the order of its lines (`Contents.Agrees`), so the document that is
written by labels, read by numerals, gives back the identifiers that were written first
(`write_read_asLabels`).
-/

namespace Recognizer

open Std Text Document

namespace Contents

variable {contents other : Contents} {start : Vertex} {facts : List Fact}

/-- The same start and the same statements, in whatever order. -/
structure Agrees (contents other : Contents) : Prop where
  start_eq : contents.start = other.start
  mem_statements_iff : ∀ statement, statement ∈ contents.statements ↔ statement ∈ other.statements

/-- Contents agree with themselves. -/
theorem Agrees.refl (contents : Contents) : contents.Agrees contents :=
  ⟨rfl, fun _ => Iff.rfl⟩

/-- Agreement holds both ways. -/
theorem Agrees.symm (h : contents.Agrees other) : other.Agrees contents :=
  ⟨h.start_eq.symm, fun statement => (h.mem_statements_iff statement).symm⟩

/-- Contents that agree ask for the same labels. -/
theorem Agrees.mem_labels_iff (h : contents.Agrees other) {label : String} :
    label ∈ contents.labels ↔ label ∈ other.labels := by
  simp only [labels, h.start_eq, List.mem_cons, List.mem_flatMap, h.mem_statements_iff]

/-- Contents that agree describe the same automaton, if their names are numerals. -/
theorem Agrees.exists_resolve?_eq (h : contents.Agrees other)
    (hresolve : other.resolve? = some (start, facts)) :
    ∃ more, contents.resolve? = some (start, more) ∧
      Automaton.ofFacts start more = Automaton.ofFacts start facts := by
  simp only [resolve?, bind, Option.bind_eq_some_iff, pure, Option.some.injEq,
    Prod.mk.injEq] at hresolve
  obtain ⟨_, hstart, facts, hfacts, rfl, rfl⟩ := hresolve
  obtain ⟨more, hmore, hsame⟩ := exists_mapM_of_mem_iff h.mem_statements_iff hfacts
  refine ⟨more, ?_, Automaton.ofFacts_congr hsame⟩
  rw [resolve?, h.start_eq, hstart, hmore]
  rfl

end Contents

namespace Automaton

variable {A : Automaton}

/-- The finishes that are written are the numerals of the finishes. -/
theorem finish_mem_contents {name : List Char} :
    .finish name ∈ A.contents.statements ↔ ∃ q, A.isFinish q = true ∧ Numeral.write q = name := by
  simp [contents, isFinish]

/-- The transitions that are written are those between numerals. -/
theorem transition_mem_contents {t : Transition (List Char)} :
    .transition t ∈ A.contents.statements ↔ ∃ u ∈ A.transitions, u.rename Numeral.write = t := by
  simp [contents]

/-- Without the unmentioned vertices, no symbol becomes unwritable. -/
theorem isWritable_dropUnmentioned (hA : A.IsWritable) : A.dropUnmentioned.IsWritable := by
  intro t ht
  rw [mem_transitions_iff, mem_successors_dropUnmentioned, ← mem_transitions_iff] at ht
  exact hA t ht

end Automaton

namespace NamedAutomaton

variable {L M : NamedAutomaton} {contents other : Contents} {A : Automaton} {q : Vertex}

/-- What describes an automaton agrees with what is written for it. -/
theorem IsDescribedBy.agrees (h : L.IsDescribedBy contents) : L.contents.Agrees contents where
  start_eq := by
    change L.startName.toList = _
    rw [h.startName_eq, String.toList_ofList]
  mem_statements_iff statement := by
    cases statement with
    | finish name =>
      have hname : name = (String.ofList name).toList := String.toList_ofList.symm
      rw [hname, finish_mem_contents, h.mem_finishNames_iff]
    | transition t =>
      have ht : t = (t.rename String.ofList).rename String.toList := by
        simp [Transition.rename, String.toList_ofList]
      rw [ht, transition_mem_contents, h.mem_transitionsByName_iff]

/-- What agrees with a description is one. -/
theorem IsDescribedBy.of_agrees (h : L.IsDescribedBy contents) (hagrees : contents.Agrees other) :
    L.IsDescribedBy other where
  startName_eq := hagrees.start_eq ▸ h.startName_eq
  mem_vertexNames_iff name := by
    rw [h.mem_vertexNames_iff, hagrees.mem_labels_iff]
  mem_finishNames_iff name := by
    rw [h.mem_finishNames_iff, hagrees.mem_statements_iff]
  mem_transitionsByName_iff t := by
    rw [h.mem_transitionsByName_iff, hagrees.mem_statements_iff]

/-- Whether an automaton can be written is seen by names. -/
theorem IsWritable.of_beq (hL : L.IsWritable) (h : (L == M) = true) : M.IsWritable := by
  obtain ⟨_, hvertices, _, htransitions⟩ := beq_iff.1 h
  constructor
  · intro q hq
    have hname : M.name q ∈ L.vertexNames := hvertices ▸ mem_vertexNames.2 ⟨q, hq, rfl⟩
    obtain ⟨p, hp, hname⟩ := mem_vertexNames.1 hname
    exact hname ▸ hL.isName_name p hp
  · intro t ht c hc
    have hnamed : t.rename M.name ∈ L.transitionsByName :=
      htransitions ▸ mem_transitionsByName.2 ⟨t, ht, rfl⟩
    obtain ⟨u, hu, hname⟩ := mem_transitionsByName.1 hnamed
    have hsymbol : u.symbol = t.symbol := congrArg (·.symbol) hname
    exact hL.isWritable_automaton u hu c (hsymbol ▸ hc)

/-! ### An automaton without labels -/

/-- The automaton with no labels, whose vertices go by their numerals. -/
def unlabelled (A : Automaton) : NamedAutomaton :=
  ⟨A, ∅⟩

/-- A vertex without label goes by its numeral. -/
theorem name_unlabelled : (unlabelled A).name q = String.ofList (Numeral.write q) := rfl

/-- Numerals tell vertices apart. -/
theorem hasDistinctNames_unlabelled : (unlabelled A).HasDistinctNames := by
  intro q _ r _ h
  rw [name_unlabelled, name_unlabelled, ← String.toList_inj, String.toList_ofList,
    String.toList_ofList] at h
  exact Numeral.write_inj.1 h

/-- Numerals can always be written. -/
theorem isWritable_unlabelled (hA : A.IsWritable) : (unlabelled A).IsWritable where
  isName_name q _ := by
    rw [name_unlabelled, String.toList_ofList]
    exact isName_write q
  isWritable_automaton := hA

/-- By labels, an automaton without labels states what it states by numerals. -/
theorem agrees_contents_unlabelled : (unlabelled A).contents.Agrees A.contents where
  start_eq := String.toList_ofList
  mem_statements_iff statement := by
    cases statement with
    | finish name =>
      have hname : name = (String.ofList name).toList := String.toList_ofList.symm
      rw [hname, finish_mem_contents, mem_finishNames, ← hname, Automaton.finish_mem_contents]
      simp only [name_unlabelled, String.ofList_inj]
      rfl
    | transition t =>
      have ht : t = (t.rename String.ofList).rename String.toList := by
        simp [Transition.rename, String.toList_ofList]
      have hrename (u : Transition Vertex) :
          u.rename (unlabelled A).name = t.rename String.ofList ↔ u.rename Numeral.write = t := by
        cases u
        cases t
        simp [Transition.rename, name_unlabelled, String.ofList_inj]
      rw [ht, transition_mem_contents, mem_transitionsByName, ← ht,
        Automaton.transition_mem_contents]
      simp only [hrename]
      rfl

/-- Apart from the unmentioned vertices, the document of an automaton describes it by numerals. -/
theorem isDescribedBy_unlabelled (hA : A.WellFormed) :
    (unlabelled A).dropUnmentioned.IsDescribedBy A.contents :=
  (isDescribedBy_contents hA).of_agrees agrees_contents_unlabelled

end NamedAutomaton

namespace Automaton

variable {A : Automaton} {q : Vertex}

/-- The automaton that the document of `A` is read to by labels. -/
def asLabels (A : Automaton) : NamedAutomaton :=
  .ofContents A.contents

/-- Read by labels, a written automaton has the numerals for labels. -/
theorem readByLabels_toString (hsymbols : A.IsWritable) :
    NamedAutomaton.read (toString A) = .ok A.asLabels := by
  rw [← toOption_eq_some_iff, NamedAutomaton.toOption_read, ofLines?_toString hsymbols,
    Option.map_some, asLabels]

section AsLabels

variable (hA : A.WellFormed)
include hA

/-- For the numerals of vertices there are enough identifiers. -/
theorem fits_asLabels : A.asLabels.Fits :=
  (NamedAutomaton.isDescribedBy_unlabelled hA).fits_ofContents

/-- Every vertex has its numeral as label, and every label is that of a vertex. -/
theorem isTight_asLabels : A.asLabels.IsTight :=
  NamedAutomaton.isTight_ofContents (fits_asLabels hA)

/-- Read by labels, the automaton is what the document states. -/
theorem isDescribedBy_asLabels : A.asLabels.IsDescribedBy A.contents :=
  NamedAutomaton.isDescribedBy_ofContents (fits_asLabels hA)

/-- By names it cannot be told whether vertices have their numerals as labels, or no labels. -/
theorem beq_asLabels :
    ((NamedAutomaton.unlabelled A).dropUnmentioned == A.asLabels) = true :=
  (NamedAutomaton.isDescribedBy_unlabelled hA).beq (isDescribedBy_asLabels hA)

/-- Numerals as labels can be written. -/
theorem isWritable_asLabels (hsymbols : A.IsWritable) : A.asLabels.IsWritable := by
  have hdropped := isWritable_dropUnmentioned hsymbols
  exact (NamedAutomaton.isWritable_unlabelled hdropped).of_beq (beq_asLabels hA)

/-- Each vertex becomes that of its numeral, and nothing else changes. -/
theorem exists_isIsomorphism_asLabels :
    ∃ f, IsIsomorphism f A.dropUnmentioned A.asLabels.automaton ∧
      ∀ q, A.mentions q = true →
        A.asLabels.labels.labelOf? (f q) = some (String.ofList (Numeral.write q)) ∧
        A.asLabels.labels.vertex? (String.ofList (Numeral.write q)) = some (f q) := by
  have htight := isTight_asLabels hA
  obtain ⟨hiso, hnames⟩ := NamedAutomaton.isIsomorphism_matchNames
    NamedAutomaton.hasDistinctNames_unlabelled hA.dropUnmentioned
    htight.toIsLabelled.hasDistinctNames htight.wellFormed (beq_asLabels hA)
  refine ⟨_, hiso, fun q hq => ?_⟩
  have hcontains := contains_dropUnmentioned.2 ⟨hA.contains_of_mentions hq, hq⟩
  have hvertex := (htight.name_eq_iff (hiso.bijOn.mapsTo hcontains)).1 (hnames q hcontains)
  exact ⟨(htight.isConsistent.vertex?_eq_some_iff _ _).1 hvertex, hvertex⟩

/-- In the order of labels the document still states the same, so it is read to the same automaton. -/
theorem read_toString_asLabels (hsymbols : A.IsWritable) :
    read (toString A.asLabels) = .ok A.dropUnmentioned := by
  obtain ⟨facts, hfacts, hsame⟩ :=
    (isDescribedBy_asLabels hA).agrees.exists_resolve?_eq resolve?_contents
  rw [← toOption_eq_some_iff, toOption_read,
    NamedAutomaton.ofLines?_toString (isTight_asLabels hA).wellFormed
      (isWritable_asLabels hA hsymbols), Option.bind_some, hfacts, Option.map_some]
  exact congrArg some (hsame.trans (ofFacts_facts hA))

end AsLabels

/-- What is written by numerals and read by labels has the numeral of each vertex for its label, and
is the same up to the identifiers. Written by labels again, it is read by numerals as it was, apart
from the vertices that no document mentions. -/
theorem write_read_asLabels (A : Automaton) (hA : A.WellFormed) (text : String)
    (hwrite : A.write = .ok text) :
    ∃ (L : NamedAutomaton) (f : Vertex → Vertex) (written : String),
      NamedAutomaton.read text = .ok L ∧ L.automaton.WellFormed ∧
      IsIsomorphism f A.dropUnmentioned L.automaton ∧
      (∀ q, A.mentions q = true →
        L.labels.labelOf? (f q) = some (String.ofList (Numeral.write q)) ∧
        L.labels.vertex? (String.ofList (Numeral.write q)) = some (f q)) ∧
      L.write = .ok written ∧ read written = .ok A.dropUnmentioned := by
  obtain ⟨hsymbols, rfl⟩ := write_eq_ok_iff.1 hwrite
  obtain ⟨f, hiso, hlabels⟩ := exists_isIsomorphism_asLabels hA
  have hwritten : A.asLabels.write = .ok (toString A.asLabels) :=
    NamedAutomaton.write_eq_ok_iff.2 ⟨isWritable_asLabels hA hsymbols, rfl⟩
  exact ⟨A.asLabels, f, _, readByLabels_toString hsymbols, (isTight_asLabels hA).wellFormed, hiso,
    hlabels, hwritten, read_toString_asLabels hA hsymbols⟩

/-- A cycle through the vertices 10 and 2, whose order as labels is the other one, with a vertex that
nothing mentions. -/
def twoDigitCycle : Automaton :=
  (ofFacts 10 [.finish 2, .transition ⟨10, some 'a', 2⟩, .transition ⟨2, none, 10⟩]).insertVertex 7

/-- Read by labels, the cycle starts at the first vertex, and it is written from there. Its
identifiers come back with the numerals. -/
theorem write_read_asLabels_twoDigitCycle :
    twoDigitCycle.WellFormed ∧ twoDigitCycle.write = .ok "10\n\n2\n\n2 10\n10 2 a\n" ∧
      ∃ (L : NamedAutomaton) (f : Vertex → Vertex),
        NamedAutomaton.read "10\n\n2\n\n2 10\n10 2 a\n" = .ok L ∧ f 10 = 0 ∧
        IsIsomorphism f twoDigitCycle.dropUnmentioned L.automaton ∧
        L.write = .ok "10\n\n2\n\n10 2 a\n2 10\n" ∧
        read "10\n\n2\n\n10 2 a\n2 10\n" = .ok twoDigitCycle.dropUnmentioned := by
  have hwell : twoDigitCycle.WellFormed := wellFormed_ofFacts.insertVertex 7
  have hwrite : twoDigitCycle.write = .ok "10\n\n2\n\n2 10\n10 2 a\n" := rfl
  have hsorted : twoDigitCycle.asLabels.write = .ok "10\n\n2\n\n10 2 a\n2 10\n" := rfl
  have hfirst : twoDigitCycle.asLabels.labels.vertex? "10" = some 0 := rfl
  have hlabels : NamedAutomaton.read "10\n\n2\n\n2 10\n10 2 a\n" = .ok twoDigitCycle.asLabels := by
    obtain ⟨hsymbols, htext⟩ := write_eq_ok_iff.1 hwrite
    rw [← htext, readByLabels_toString hsymbols]
  obtain ⟨L, f, written, hread, _, hiso, hvertices, hwritten, hback⟩ :=
    write_read_asLabels twoDigitCycle hwell _ hwrite
  rw [hlabels] at hread
  cases hread
  rw [hsorted] at hwritten
  cases hwritten
  have hstart : f 10 = 0 := by
    have hten : String.ofList (Numeral.write 10) = "10" := rfl
    have hvertex := (hvertices 10 (by decide +kernel)).2
    rw [hten, hfirst, Option.some.injEq] at hvertex
    exact hvertex.symm
  exact ⟨hwell, hwrite, _, f, hlabels, hstart, hiso, hsorted, hback⟩

end Automaton

end Recognizer
