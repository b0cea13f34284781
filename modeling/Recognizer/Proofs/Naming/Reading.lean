import Recognizer.Proofs.Document.Labels
import Recognizer.Proofs.Naming.Insertion

/-!
# What a labelled document describes

A statement about names adds the vertices of its names and then either a finish or a transition. Every
vertex so added has a label, and every label a vertex (`IsTight`), so what is read is seen by names
exactly as the document states it: the finishes and transitions by name are those of the statements,
and the names of vertices are those that the document asks for.

All of this holds as long as identifiers last for the labels of the document.
-/

namespace Recognizer

open Std

namespace NamedAutomaton

variable {L : NamedAutomaton} {label name : String} {names : List String} {q : Vertex}
variable {statement : Statement} {statements : List Statement} {contents : Contents}

/-! ### Vertices and labels -/

/-- The automaton is labelled, and every label is that of a vertex. -/
structure IsTight (L : NamedAutomaton) : Prop extends L.IsLabelled where
  contains_of_isSome : ∀ q, (L.labels.labelOf? q).isSome = true → L.automaton.contains q = true

namespace IsTight

/-- The vertices are the numbers below the number of labels. -/
theorem contains_iff (hL : L.IsTight) : L.automaton.contains q = true ↔ q.toNat < L.labels.size := by
  rw [← LabelTable.isSome_labelOf?_iff]
  exact ⟨hL.isSome_labelOf? q, hL.contains_of_isSome q⟩

/-- An automaton with the same vertices may take the place of a tight one. -/
theorem withAutomaton (hL : L.IsTight) {A : Automaton} (hA : A.WellFormed)
    (h : ∀ q, A.contains q = true ↔ L.automaton.contains q = true) :
    { L with automaton := A }.IsTight :=
  ⟨hL.toIsLabelled.withAutomaton hA h, fun q hq => (h q).2 (hL.contains_of_isSome q hq)⟩

/-- To look up a label keeps an automaton tight. -/
theorem vertex (hL : L.IsTight) (hfits : (L.vertex label).2.Fits) : (L.vertex label).2.IsTight where
  toIsLabelled := hL.toIsLabelled.vertex hfits
  contains_of_isSome q hq := Automaton.contains_insertVertex.2
    (((hL.isConsistent.isSome_labelOf?_intern hfits).1 hq).imp_right (hL.contains_of_isSome q))

/-- To insert names keeps an automaton tight. -/
theorem insertNames (hL : L.IsTight) (hfits : (L.insertNames names).Fits) :
    (L.insertNames names).IsTight := by
  induction names generalizing L with
  | nil => exact hL
  | cons name rest ih => exact ih (hL.vertex ((extends_insertNames _ rest).fits hfits)) hfits

end IsTight

/-- The automaton with one vertex is named by one label. -/
theorem isTight_singleton (start : String) : (singleton start).IsTight := by
  have hfits : ((∅ : LabelTable).intern start).2.size ≤ UInt32.size := by
    change 1 ≤ UInt32.size
    decide
  have hlabels (q : Vertex) : ((singleton start).labels.labelOf? q).isSome = true ↔
      q = ((∅ : LabelTable).intern start).1 := by
    change (((∅ : LabelTable).intern start).2.labelOf? q).isSome = true ↔ _
    have hnone : (∅ : LabelTable).labelOf? q = none := rfl
    rw [LabelTable.isConsistent_empty.isSome_labelOf?_intern hfits, hnone]
    simp
  refine ⟨⟨.singleton _, LabelTable.isConsistent_empty.intern hfits, fun q hq => ?_⟩, fun q hq => ?_⟩
  · exact (hlabels q).2 (Automaton.contains_singleton.1 hq)
  · exact Automaton.contains_singleton.2 ((hlabels q).1 hq)

/-- A statement asks for its names and changes the automaton behind them. -/
theorem addStatement_eq (L : NamedAutomaton) (statement : Statement) :
    L.addStatement statement = { L.insertNames statement.labels with
      automaton := (L.addStatement statement).automaton } := by
  cases statement <;> rfl

/-- The vertices that a statement adds are those of its names. -/
theorem contains_addStatement :
    (L.addStatement statement).automaton.contains q = true ↔
      (L.insertNames statement.labels).automaton.contains q = true := by
  cases statement with
  | finish name => exact Iff.rfl
  | transition t =>
    refine Automaton.contains_insertTransition.trans (or_iff_right_of_imp ?_)
    rintro rfl
    exact (extends_vertex _ _).contains _ (Automaton.contains_insertVertex.2 (Or.inl rfl))

/-- A further statement is an extension. -/
theorem extends_addStatement (L : NamedAutomaton) (statement : Statement) :
    (L.addStatement statement).Extends L := by
  have hnames := extends_insertNames L statement.labels
  refine ⟨?_, fun q hq => contains_addStatement.2 (hnames.contains q hq)⟩
  rw [addStatement_eq]
  exact hnames.labels

/-- Further statements are an extension. -/
theorem extends_foldl_addStatement (L : NamedAutomaton) (statements : List Statement) :
    (statements.foldl addStatement L).Extends L := by
  induction statements generalizing L with
  | nil => exact .refl L
  | cons statement rest ih => exact (ih _).trans (L.extends_addStatement statement)

/-- If a statement leaves few enough labels, so do the names in it. -/
theorem fits_insertNames_of_addStatement (hfits : (L.addStatement statement).Fits) :
    (L.insertNames statement.labels).Fits := by
  rw [addStatement_eq] at hfits
  exact hfits

/-- A further statement keeps an automaton tight. -/
theorem IsTight.addStatement (hL : L.IsTight) (hfits : (L.addStatement statement).Fits) :
    (L.addStatement statement).IsTight := by
  have hnames := hL.insertNames (fits_insertNames_of_addStatement hfits)
  have hwell := wellFormed_addStatement hL.wellFormed statement
  rw [addStatement_eq]
  exact hnames.withAutomaton hwell fun _ => contains_addStatement

/-- Further statements keep an automaton tight. -/
theorem IsTight.foldl_addStatement (hL : L.IsTight)
    (hfits : (statements.foldl NamedAutomaton.addStatement L).Fits) :
    (statements.foldl NamedAutomaton.addStatement L).IsTight := by
  induction statements generalizing L with
  | nil => exact hL
  | cons statement rest ih =>
    exact ih (hL.addStatement ((extends_foldl_addStatement _ rest).fits hfits)) hfits

/-- In the automaton of some contents, vertices and labels belong together. -/
theorem isTight_ofContents (hfits : (ofContents contents).Fits) : (ofContents contents).IsTight :=
  (isTight_singleton _).foldl_addStatement hfits

/-! ### Statements seen by names -/

namespace IsLabelled

/-- The vertex that is looked up for a label has it as its name. -/
theorem name_vertex (hL : L.IsLabelled) (hfits : (L.vertex label).2.Fits) :
    (L.vertex label).2.name (L.vertex label).1 = label :=
  ((hL.vertex hfits).name_eq_iff (Automaton.contains_insertVertex.2 (Or.inl rfl))).2
    (L.labels.vertex?_intern_self label)

/-- The finishes by name after a statement. -/
theorem mem_finishNames_addStatement (hL : L.IsLabelled)
    (hfits : (L.addStatement statement).Fits) :
    name ∈ (L.addStatement statement).finishNames ↔
      name ∈ L.finishNames ∨ .finish name.toList = statement := by
  cases statement with
  | finish written =>
    have hadd : L.addStatement (.finish written) = { L.insertNames [String.ofList written] with
        automaton := (L.insertNames [String.ofList written]).automaton.insertFinish
          (L.vertex (String.ofList written)).1 } := rfl
    have hname : (L.insertNames [String.ofList written]).name (L.vertex (String.ofList written)).1 =
        String.ofList written := hL.name_vertex (fits_insertNames_of_addStatement hfits)
    rw [hadd, mem_finishNames_insertFinish, hL.finishNames_insertNames, hname,
      Statement.finish.injEq, ← String.toList_inj, String.toList_ofList, eq_comm]
  | transition t =>
    have hold : (L.addStatement (.transition t)).finishNames = L.finishNames :=
      hL.finishNames_eq_of_extends (L.extends_addStatement _) fun _ => rfl
    simp [hold]

/-- The transitions by name after a statement. -/
theorem mem_transitionsByName_addStatement (hL : L.IsLabelled)
    (hfits : (L.addStatement statement).Fits) {t : Transition String} :
    t ∈ (L.addStatement statement).transitionsByName ↔
      t ∈ L.transitionsByName ∨ .transition (t.rename String.toList) = statement := by
  cases statement with
  | finish written =>
    have hold : (L.addStatement (.finish written)).transitionsByName = L.transitionsByName :=
      hL.transitionsByName_eq_of_extends (L.extends_addStatement _) fun _ _ =>
        Automaton.successors_insertFinish.trans Automaton.successors_insertVertex
    simp [hold]
  | transition written =>
    -- The source is named before the target, which may ask for a further label.
    let first := L.vertex (String.ofList written.source)
    let second := first.2.vertex (String.ofList written.target)
    have hsecond : second.2.Fits := fits_insertNames_of_addStatement hfits
    have hfirst : first.2.Fits := (first.2.extends_vertex _).fits hsecond
    have hlabelled : first.2.IsLabelled := hL.vertex hfirst
    have hcontains : first.2.automaton.contains first.1 = true :=
      Automaton.contains_insertVertex.2 (Or.inl rfl)
    have hsource : second.2.name first.1 = String.ofList written.source :=
      ((first.2.extends_vertex _).name_eq (hlabelled.isSome_labelOf? _ hcontains)).trans
        (hL.name_vertex hfirst)
    have htarget : second.2.name second.1 = String.ofList written.target :=
      hlabelled.name_vertex hsecond
    have hends : second.2 = L.insertNames (Statement.transition written).labels := rfl
    have hold : second.2.transitionsByName = L.transitionsByName := by
      rw [hends, hL.transitionsByName_insertNames]
    have hadd : L.addStatement (.transition written) = { second.2 with
        automaton := second.2.automaton.insertTransition
          ⟨first.1, written.symbol, second.1⟩ } := rfl
    rw [hadd, mem_transitionsByName_insertTransition, hold, Transition.rename, hsource, htarget,
      Statement.transition.injEq]
    refine or_congr_right ?_
    cases t
    cases written
    simp only [Transition.rename, Transition.mk.injEq, ← String.toList_inj, String.toList_ofList,
      eq_comm]

/-- The names of vertices after a statement. -/
theorem mem_vertexNames_addStatement (hL : L.IsLabelled)
    (hfits : (L.addStatement statement).Fits) :
    name ∈ (L.addStatement statement).vertexNames ↔
      name ∈ L.vertexNames ∨ name ∈ statement.labels := by
  rw [← hL.mem_vertexNames_insertNames (fits_insertNames_of_addStatement hfits), mem_vertexNames,
    mem_vertexNames]
  refine exists_congr fun q => and_congr contains_addStatement ?_
  rw [addStatement_eq]
  rfl

/-- The start keeps its name. -/
theorem startName_addStatement (hL : L.IsLabelled) (statement : Statement) :
    (L.addStatement statement).startName = L.startName :=
  hL.startName_eq_of_extends (L.extends_addStatement statement) (by cases statement <;> rfl)

end IsLabelled

/-! ### Documents seen by names -/

section Fold

variable (hL : L.IsTight) (hfits : (statements.foldl addStatement L).Fits)
include hL hfits

/-- Further statements leave the name of the start as it is. -/
theorem startName_foldl_addStatement :
    (statements.foldl addStatement L).startName = L.startName := by
  induction statements generalizing L with
  | nil => rfl
  | cons first rest ih =>
    have hfirst := (extends_foldl_addStatement _ rest).fits hfits
    exact (ih (hL.addStatement hfirst) hfits).trans (hL.startName_addStatement first)

/-- The labels in further statements become names of vertices. -/
theorem mem_vertexNames_foldl_addStatement :
    name ∈ (statements.foldl addStatement L).vertexNames ↔
      name ∈ L.vertexNames ∨ ∃ statement ∈ statements, name ∈ statement.labels := by
  induction statements generalizing L with
  | nil => simp
  | cons first rest ih =>
    have hfirst := (extends_foldl_addStatement _ rest).fits hfits
    rw [List.foldl_cons, ih (hL.addStatement hfirst) hfits, hL.mem_vertexNames_addStatement hfirst,
      or_assoc]
    simp only [List.mem_cons, exists_eq_or_imp]

/-- The finishes among further statements become names of finishes. -/
theorem mem_finishNames_foldl_addStatement :
    name ∈ (statements.foldl addStatement L).finishNames ↔
      name ∈ L.finishNames ∨ .finish name.toList ∈ statements := by
  induction statements generalizing L with
  | nil => simp
  | cons first rest ih =>
    have hfirst := (extends_foldl_addStatement _ rest).fits hfits
    rw [List.foldl_cons, ih (hL.addStatement hfirst) hfits, hL.mem_finishNames_addStatement hfirst,
      or_assoc, List.mem_cons]

/-- The transitions among further statements become named transitions. -/
theorem mem_transitionsByName_foldl_addStatement {t : Transition String} :
    t ∈ (statements.foldl addStatement L).transitionsByName ↔
      t ∈ L.transitionsByName ∨ .transition (t.rename String.toList) ∈ statements := by
  induction statements generalizing L with
  | nil => simp
  | cons first rest ih =>
    have hfirst := (extends_foldl_addStatement _ rest).fits hfits
    rw [List.foldl_cons, ih (hL.addStatement hfirst) hfits,
      hL.mem_transitionsByName_addStatement hfirst, or_assoc, List.mem_cons]

end Fold

/-- What is seen by names is what the contents state. -/
structure IsDescribedBy (L : NamedAutomaton) (contents : Contents) : Prop where
  startName_eq : L.startName = String.ofList contents.start
  mem_vertexNames_iff : ∀ name, name ∈ L.vertexNames ↔ name ∈ contents.labels
  mem_finishNames_iff : ∀ name, name ∈ L.finishNames ↔ .finish name.toList ∈ contents.statements
  mem_transitionsByName_iff : ∀ t : Transition String,
    t ∈ L.transitionsByName ↔ .transition (t.rename String.toList) ∈ contents.statements

/-- A single vertex has the name it was given. -/
theorem startName_singleton (start : String) : (singleton start).startName = start := by
  have htight := isTight_singleton start
  refine (htight.name_eq_iff htight.wellFormed.contains_start).2 ?_
  exact LabelTable.vertex?_intern_self ∅ start

/-- The automaton of some contents is what they state. -/
theorem isDescribedBy_ofContents (hfits : (ofContents contents).Fits) :
    (ofContents contents).IsDescribedBy contents := by
  have hstart := isTight_singleton (String.ofList contents.start)
  constructor
  · exact (startName_foldl_addStatement hstart hfits).trans (startName_singleton _)
  · intro name
    rw [ofContents, mem_vertexNames_foldl_addStatement hstart hfits, Contents.labels,
      List.mem_cons, List.mem_flatMap]
    refine or_congr_left ?_
    rw [mem_vertexNames, ← startName_singleton (String.ofList contents.start)]
    constructor
    · rintro ⟨q, hq, rfl⟩
      rw [Automaton.contains_singleton.1 hq]
      rfl
    · rintro rfl
      exact ⟨_, hstart.wellFormed.contains_start, rfl⟩
  · intro name
    rw [ofContents, mem_finishNames_foldl_addStatement hstart hfits, mem_finishNames]
    refine or_iff_right ?_
    rintro ⟨q, hq, _⟩
    rw [singleton, Automaton.isFinish_singleton] at hq
    cases hq
  · intro t
    rw [ofContents, mem_transitionsByName_foldl_addStatement hstart hfits, mem_transitionsByName]
    refine or_iff_right ?_
    rintro ⟨u, hu, _⟩
    exact Automaton.not_mem_successors_singleton (Automaton.mem_transitions_iff.1 hu)

end NamedAutomaton

end Recognizer
