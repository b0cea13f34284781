import Recognizer.Proofs.Document.Grammar
import Recognizer.Proofs.Document.Reading
import Recognizer.Proofs.Document.RoundTrip
import Recognizer.Proofs.Naming.LabelTable

/-!
# The labels of a document

A labelled document is read to the automaton of its statements, whose labels are the names that the
statements hold. Names of the start and of finishes are always writable. The ends of a transition are
cut out at single spaces (`mem_labels_iff`), so they may be empty or hold any other white space,
which no label in a written document can. If they are names too, only a symbol can keep the writer
from writing what was read (`isWritableLabel_of_read`).
-/

namespace Recognizer

open Text Document

namespace Document

/-- What stands on a line for the ends of a transition. -/
def endNames (line : List Char) : List (List Char) :=
  (line.splitOn ' ').take 2

/-- The names of ends are cut out at spaces, so they hold none. -/
theorem not_mem_space_of_mem_endNames {line name : List Char} (h : name ∈ endNames line) :
    ' ' ∉ name :=
  not_mem_of_mem_splitOn (List.mem_of_mem_take h)

/-- On the line of a transition its ends stand as they are, if they hold no spaces. -/
theorem endNames_transitionLine {t : Transition (List Char)} (ht : Spaceless t) :
    endNames (transitionLine t) = [t.source, t.target] := by
  cases hsymbol : t.symbol with
  | none =>
    rw [transitionLine_of_eq_none hsymbol, endNames, List.splitOn_append_cons_self,
      List.splitOn_eq_singleton ht.source, List.splitOn_eq_singleton ht.target]
    rfl
  | some c =>
    rw [transitionLine_of_mem hsymbol, openLine, List.append_assoc, List.cons_append,
      List.append_assoc, endNames, List.splitOn_append_cons_self, List.singleton_append,
      List.splitOn_append_cons_self, List.splitOn_eq_singleton ht.source,
      List.splitOn_eq_singleton ht.target]
    rfl

/-- The labels that can be written are the names. -/
theorem isWritableLabel_ofList_iff {name : List Char} :
    isWritableLabel (String.ofList name) = true ↔ IsName name := by
  rw [← isName_toList_iff, String.toList_ofList]

end Document

/-- The labels that a statement asks for. -/
def Statement.labels : Statement → List String
  | finish name => [String.ofList name]
  | transition t => [String.ofList t.source, String.ofList t.target]

/-- The labels that a document asks for. -/
def Contents.labels (contents : Contents) : List String :=
  String.ofList contents.start :: contents.statements.flatMap Statement.labels

namespace NamedAutomaton

variable {L : NamedAutomaton} {contents : Contents} {label text : String}

/-- The automaton with just what the contents state. -/
def ofContents (contents : Contents) : NamedAutomaton :=
  contents.statements.foldl addStatement (singleton (String.ofList contents.start))

/-! ### Reading -/

/-- A document is read to the automaton of its contents. -/
theorem toOption_read (text : String) :
    (read text).toOption = (Contents.ofLines? (lines text.toList)).map ofContents := by
  have hstep (L : NamedAutomaton) (entry : Nat × Except TextError Statement) :
      (do return L.addStatement (← entry.2) : Except TextError NamedAutomaton).toOption =
        entry.2.toOption.map L.addStatement := by
    cases entry.2 <;> rfl
  have houtline (outline : Outline) :
      (ofOutline outline).toOption = outline.contents?.map ofContents := by
    rw [ofOutline, toOption_foldlM hstep, Outline.contents?, Option.map_map, Outline.statements?]
    rfl
  rw [read, toOption_bind, ← Outline.contents?_ofText, Option.map_bind]
  exact congrArg (Option.bind _) (funext houtline)

/-- What is read is the automaton of the contents. -/
theorem exists_contents_of_read (h : read text = .ok L) :
    ∃ contents, Contents.ofLines? (lines text.toList) = some contents ∧ ofContents contents = L := by
  have hread := toOption_read text
  rw [h] at hread
  exact Option.map_eq_some_iff.1 hread.symm

/-! ### The automaton of some contents -/

/-- A statement keeps the automaton well-formed. -/
theorem wellFormed_addStatement (hL : L.automaton.WellFormed) (statement : Statement) :
    (L.addStatement statement).automaton.WellFormed := by
  cases statement with
  | finish name => exact (hL.insertVertex _).insertFinish (by simp)
  | transition t =>
    apply Automaton.WellFormed.insertTransition ((hL.insertVertex _).insertVertex _)
    · simp
    · simp

/-- Any statements keep the automaton well-formed. -/
theorem wellFormed_foldl_addStatement (hL : L.automaton.WellFormed) (statements : List Statement) :
    (statements.foldl addStatement L).automaton.WellFormed := by
  induction statements generalizing L with
  | nil => exact hL
  | cons statement rest ih => exact ih (wellFormed_addStatement hL statement)

/-- What is read is well-formed. -/
theorem wellFormed_of_read (h : read text = .ok L) : L.automaton.WellFormed := by
  obtain ⟨contents, _, rfl⟩ := exists_contents_of_read h
  exact wellFormed_foldl_addStatement (Automaton.WellFormed.singleton _) _

/-- A statement asks the table for its labels. -/
theorem labels_addStatement (L : NamedAutomaton) (statement : Statement) :
    (L.addStatement statement).labels = L.labels.internAll statement.labels := by
  cases statement <;> rfl

/-- Statements ask the table for their labels, one after the other. -/
theorem labels_foldl_addStatement (L : NamedAutomaton) (statements : List Statement) :
    (statements.foldl addStatement L).labels =
      L.labels.internAll (statements.flatMap Statement.labels) := by
  induction statements generalizing L with
  | nil => rfl
  | cons statement rest ih =>
    rw [List.foldl_cons, ih, labels_addStatement, List.flatMap_cons, LabelTable.internAll_append]

/-- The table is the one that asking for the labels of the document gives. -/
theorem labels_ofContents :
    (ofContents contents).labels = (∅ : LabelTable).internAll contents.labels :=
  labels_foldl_addStatement _ _

/-- The labels are those that the document asks for. -/
theorem mem_labels_ofContents :
    label ∈ (ofContents contents).labels.labels ↔ label ∈ contents.labels := by
  have hempty : label ∉ (∅ : LabelTable).labels := List.not_mem_nil
  rw [labels_ofContents, LabelTable.isIndexed_empty.mem_internAll]
  exact or_iff_left hempty

/-! ### Labels that can be written -/

/-- The labels that a document asks for are the names of the start and of the finishes, and what
stands for the ends of its transitions. -/
theorem mem_labels_iff (h : Contents.ofLines? (lines text.toList) = some contents) :
    label ∈ contents.labels ↔ label.toList = contents.start ∨
      .finish label.toList ∈ contents.statements ∨
        ∃ line ∈ transitionLines text, label.toList ∈ endNames line := by
  have hstated := (Contents.ofLines?_eq_some h).2
  have hname (name : List Char) : label = String.ofList name ↔ label.toList = name := by
    rw [← String.toList_inj, String.toList_ofList]
  rw [Contents.labels, List.mem_cons, List.mem_flatMap, hname]
  refine or_congr_right ⟨?_, ?_⟩
  · rintro ⟨statement, hstatement, hlabel⟩
    cases statement with
    | finish name =>
      have heq : label.toList = name := (hname name).1 (List.mem_singleton.1 hlabel)
      rw [heq]
      exact Or.inl hstatement
    | transition t =>
      obtain ⟨hline, ht⟩ := (hstated.transition_iff t).1 hstatement
      have hend : label.toList ∈ endNames (transitionLine t) := by
        simpa [endNames_transitionLine ht, Statement.labels, hname] using hlabel
      exact Or.inr ⟨_, hline, hend⟩
  · rintro (hfinish | ⟨line, hline, hend⟩)
    · exact ⟨_, hfinish, by simp [Statement.labels]⟩
    · obtain ⟨t, hstatement, rfl⟩ := hstated.exists_transition line hline
      have ht := ((hstated.transition_iff t).1 hstatement).2
      have hlabel : label ∈ (Statement.transition t).labels := by
        simpa [endNames_transitionLine ht, Statement.labels, hname] using hend
      exact ⟨_, hstatement, hlabel⟩

/-- Vertices without label are named by their numerals, so names are writable if labels are. -/
theorem isWritableLabel_name (hlabels : ∀ label ∈ L.labels.labels, isWritableLabel label = true)
    (q : Vertex) : isWritableLabel (L.name q) = true := by
  rw [name]
  cases hlabel : L.labels.labelOf? q with
  | none => exact isWritableLabel_ofList_iff.2 (isName_write q)
  | some label => exact hlabels label (List.mem_of_getElem? hlabel)

/-- If the labels are writable, the writer can only complain of a symbol. -/
theorem write_eq_error (hlabels : ∀ label ∈ L.labels.labels, isWritableLabel label = true)
    {e : TextError} (h : L.write = .error e) :
    ∃ c, e = .unwritableSymbol c ∧ isLineBreak c = true ∧
      ∃ t ∈ L.automaton.transitions, t.symbol = some c := by
  have hname : L.unwritableName? = none := by
    rw [unwritableName?, List.find?_eq_none, List.forall_mem_map]
    intro q _
    simp [isWritableLabel_name hlabels q]
  rw [write, hname] at h
  cases hsymbol : L.automaton.unwritableSymbol? with
  | none => simp [hsymbol] at h
  | some c =>
    simp only [hsymbol, Except.error.injEq] at h
    exact ⟨c, h.symm, Automaton.exists_of_unwritableSymbol? hsymbol⟩

/-- No label that is read holds a space. All are writable if on each line of the transition section
the names of the ends are, and then only a line break as symbol keeps the automaton from being
written. -/
theorem isWritableLabel_of_read (text : String) (L : NamedAutomaton) (h : read text = .ok L) :
    (∀ label ∈ L.labels.labels, ' ' ∉ label.toList) ∧
      ((∀ label ∈ L.labels.labels, isWritableLabel label = true) ↔
        ∀ line ∈ transitionLines text, ∀ name ∈ endNames line, IsName name) ∧
      ((∀ label ∈ L.labels.labels, isWritableLabel label = true) →
        ∀ e, L.write = .error e →
          ∃ c, e = .unwritableSymbol c ∧ isLineBreak c = true ∧
            ∃ t ∈ L.automaton.transitions, t.symbol = some c) := by
  obtain ⟨contents, hcontents, rfl⟩ := exists_contents_of_read h
  obtain ⟨hstart, hstated⟩ := Contents.ofLines?_eq_some hcontents
  have hmem {label : String} : label ∈ (ofContents contents).labels.labels ↔ _ :=
    mem_labels_ofContents.trans (mem_labels_iff hcontents)
  refine ⟨fun label hlabel => ?_, ⟨fun hlabels line hline name hname => ?_,
    fun hnames label hlabel => ?_⟩, fun hlabels e => write_eq_error hlabels⟩
  · rcases hmem.1 hlabel with heq | hfinish | ⟨line, _, hend⟩
    · exact heq ▸ hstart.not_mem_space
    · exact (hstated.isName_finish _ hfinish).not_mem_space
    · exact not_mem_space_of_mem_endNames hend
  · rw [← isWritableLabel_ofList_iff]
    apply hlabels
    rw [hmem, String.toList_ofList]
    exact Or.inr (Or.inr ⟨line, hline, hname⟩)
  · rw [← isName_toList_iff]
    rcases hmem.1 hlabel with heq | hfinish | ⟨line, hline, hend⟩
    · exact heq ▸ hstart
    · exact hstated.isName_finish _ hfinish
    · exact hnames line hline _ hend

/-- A step between two labelled vertices, and a silent one back. -/
def labelledCycle : NamedAutomaton :=
  ofContents ⟨['p'], [.finish ['q'], .transition ⟨['p'], some '\u00a0', ['q']⟩,
    .transition ⟨['q'], none, ['p']⟩]⟩

/-- White space is no part of a label where the names of the ends of all transitions are names. -/
theorem isWritableLabel_of_read_labelledCycle :
    read "p\n\n q\t\n\np q \u00a0\nq p\n" = .ok labelledCycle ∧
      ∀ label ∈ labelledCycle.labels.labels, isWritableLabel label = true := by
  have hread : read "p\n\n q\t\n\np q \u00a0\nq p\n" = .ok labelledCycle := rfl
  have hnames : ∀ line ∈ transitionLines "p\n\n q\t\n\np q \u00a0\nq p\n",
      ∀ name ∈ endNames line, isWritableLabel (String.ofList name) = true := by
    decide
  have hlabels := (isWritableLabel_of_read _ _ hread).2.1.2
  exact ⟨hread, hlabels fun line hline name hname =>
    isWritableLabel_ofList_iff.1 (hnames line hline name hname)⟩

/-- Where two spaces stand between the fields of a transition, its target is the empty label. -/
theorem exists_read_unwritableLabel :
    ∃ L, read "p\n\n\np  q\n" = .ok L ∧ "" ∈ L.labels.labels ∧
      L.write = .error (.unwritableLabel "") :=
  ⟨ofContents ⟨['p'], [.transition ⟨['p'], some 'q', []⟩]⟩, rfl, by decide, rfl⟩

end NamedAutomaton

end Recognizer
