import Recognizer.Proofs.Document.NumeralLabels

/-!
# Labels that share a vertex

Labels get their numbers in the order in which they are first asked for. Where there are more labels
than identifiers, the numbers start again from zero, and nothing fails. A label then shares its vertex
with the label that stands at the remainder of its place, and goes by the name of that one
(`namesByRemainder_ofContents`).

What is read from a document is, by names, what the document states after every label was replaced by
the name that it goes by (`isDescribedBy_rename`). So documents are read to equal automata exactly if
they state the same after that (`beq_ofContents_iff`). The first labels, as many as there are
identifiers, go by their own names. Where there are more, the order of lines can make a difference,
since it decides which labels are the first ones (`not_beq_ofContents_reverse`).
-/

namespace Recognizer

open Std

/-! ### Places and numbers -/

namespace LabelTable

variable {L M : LabelTable} {label : String} {labels : List String} {q : Vertex}

/-- The vertex of a label, and zero if it has none. -/
def vertexOf (L : LabelTable) (label : String) : Vertex :=
  (L.vertex? label).getD 0

/-- The vertex for which a label is asked stays that of the label. -/
theorem Extends.vertexOf_eq (h : M.Extends (L.intern label).2) :
    M.vertexOf label = (L.intern label).1 := by
  rw [vertexOf, h.vertex?_eq_some _ _ (L.vertex?_intern_self label), Option.getD_some]

/-- The labels of the table have the numbers of their places for vertices, as far as numbers go. -/
def IsNumbered (L : LabelTable) : Prop :=
  ∀ label q, L.vertex? label = some q ↔ ∃ i, L.labels[i]? = some label ∧ UInt32.ofNat i = q

/-- Without labels there are no vertices. -/
theorem isNumbered_empty : (∅ : LabelTable).IsNumbered := by
  intro label q
  change (∅ : ExtTreeMap String Vertex)[label]? = some q ↔
    ∃ i, ([] : List String)[i]? = some label ∧ UInt32.ofNat i = q
  simp

/-- A new label gets the number of the place where it is put. -/
theorem IsNumbered.intern (hL : L.IsNumbered) (label : String) :
    (L.intern label).2.IsNumbered := by
  intro other q
  cases hlabel : L.vertex? label with
  | some r =>
    rw [intern_of_vertex?_eq_some hlabel]
    exact hL other q
  | none =>
    rw [intern_of_vertex?_eq_none hlabel, vertex?, ExtTreeMap.getElem?_insert]
    simp only [getElem?_concat_eq_some_iff, or_and_right, exists_or, and_assoc, exists_eq_left,
      ← hL other q, Std.compare_eq_iff_eq]
    by_cases hother : label = other
    · rw [← hother, hlabel]
      simp [size]
    · simp [hother, vertex?]

/-- However many labels are asked for, they are numbered. -/
theorem IsNumbered.internAll (hL : L.IsNumbered) (labels : List String) :
    (L.internAll labels).IsNumbered := by
  induction labels generalizing L with
  | nil => exact hL
  | cons first rest ih => exact ih (hL.intern first)

/-- Distinct labels that the table lacks are put after its own, in their order. -/
theorem IsIndexed.labels_internAll (hL : L.IsIndexed) (hnodup : labels.Nodup)
    (hnew : ∀ label ∈ labels, label ∉ L.labels) :
    (L.internAll labels).labels = L.labels ++ labels := by
  induction labels generalizing L with
  | nil => exact (List.append_nil _).symm
  | cons first rest ih =>
    obtain ⟨hfirst, hrest⟩ := List.nodup_cons.1 hnodup
    obtain ⟨hfirstNew, hrestNew⟩ := List.forall_mem_cons.1 hnew
    have hnone : L.vertex? first = none := by
      rw [← Option.not_isSome_iff_eq_none, ← hL first]
      exact hfirstNew
    have hlabels : (L.intern first).2.labels = L.labels ++ [first] := by
      rw [intern_of_vertex?_eq_none hnone]
    have hothers : ∀ label ∈ rest, label ∉ (L.intern first).2.labels := by
      intro label hlabel hmem
      rcases hL.mem_intern.1 hmem with heq | hold
      · exact hfirst (heq ▸ hlabel)
      · exact hrestNew label hlabel hold
    rw [LabelTable.internAll, List.foldl_cons, ← LabelTable.internAll,
      ih (hL.intern first) hrest hothers, hlabels, List.append_assoc, List.singleton_append]

end LabelTable

/-! ### Labels looked up and replaced -/

/-- The fact that a statement is about the vertices of its labels. -/
def Statement.lookUp (table : LabelTable) : Statement → Fact
  | finish name => .finish (table.vertexOf (String.ofList name))
  | transition t => .transition (t.rename fun name => table.vertexOf (String.ofList name))

/-- The statement with its labels replaced. -/
def Statement.rename (f : String → String) : Statement → Statement
  | finish name => .finish (f (String.ofList name)).toList
  | transition t => .transition (t.rename fun name => (f (String.ofList name)).toList)

/-- The contents with all labels replaced. -/
def Contents.rename (contents : Contents) (f : String → String) : Contents where
  start := (f (String.ofList contents.start)).toList
  statements := contents.statements.map (Statement.rename f)

/-- What no transition is made into comes from a finish. -/
theorem Statement.exists_finish_iff {α : Type} {f : Statement → α} {a : α}
    {statements : List Statement} (h : ∀ t, f (.transition t) ≠ a) :
    (∃ statement ∈ statements, f statement = a) ↔
      ∃ written, .finish written ∈ statements ∧ f (.finish written) = a := by
  apply Iff.intro
  · intro hmade
    obtain ⟨statement, hstatement, hfrom⟩ := hmade
    cases statement with
    | finish written => exact ⟨written, hstatement, hfrom⟩
    | transition t => exact absurd hfrom (h t)
  · intro hmade
    obtain ⟨written, hwritten, hfrom⟩ := hmade
    exact ⟨_, hwritten, hfrom⟩

/-- What no finish is made into comes from a transition. -/
theorem Statement.exists_transition_iff {α : Type} {f : Statement → α} {a : α}
    {statements : List Statement} (h : ∀ name, f (.finish name) ≠ a) :
    (∃ statement ∈ statements, f statement = a) ↔
      ∃ written, .transition written ∈ statements ∧ f (.transition written) = a := by
  apply Iff.intro
  · intro hmade
    obtain ⟨statement, hstatement, hfrom⟩ := hmade
    cases statement with
    | finish name => exact absurd hfrom (h name)
    | transition written => exact ⟨written, hstatement, hfrom⟩
  · intro hmade
    obtain ⟨written, hwritten, hfrom⟩ := hmade
    exact ⟨_, hwritten, hfrom⟩

/-- The vertices of a fact that is looked up are those of the labels. -/
theorem Statement.vertices_lookUp (table : LabelTable) (statement : Statement) :
    (statement.lookUp table).vertices = statement.labels.map table.vertexOf := by
  cases statement <;> rfl

/-- The labels of a statement are replaced one by one. -/
theorem Statement.labels_rename (f : String → String) (statement : Statement) :
    (statement.rename f).labels = statement.labels.map f := by
  cases statement <;> simp [rename, labels, Transition.rename, String.ofList_toList]

namespace Contents

variable {contents other : Contents} {f : String → String}

/-- The labels of the contents are replaced one by one. -/
theorem labels_rename : (contents.rename f).labels = contents.labels.map f := by
  rw [labels, rename, List.flatMap_map, labels, List.map_cons, List.map_flatMap,
    String.ofList_toList]
  simp only [Statement.labels_rename]

/-- A finish is renamed from one that is stated. -/
theorem finish_mem_rename {name : String} :
    .finish name.toList ∈ (contents.rename f).statements ↔
      ∃ written, .finish written ∈ contents.statements ∧ f (String.ofList written) = name := by
  have hother (t : Transition (List Char)) :
      (Statement.transition t).rename f ≠ .finish name.toList := nofun
  rw [rename, List.mem_map, Statement.exists_finish_iff hother]
  simp only [Statement.rename, Statement.finish.injEq, String.toList_inj]

/-- A transition is renamed from one that is stated. -/
theorem transition_mem_rename {t : Transition String} :
    .transition (t.rename String.toList) ∈ (contents.rename f).statements ↔
      ∃ written, .transition written ∈ contents.statements ∧
        written.rename (fun name => f (String.ofList name)) = t := by
  have hother (name : List Char) :
      (Statement.finish name).rename f ≠ .transition (t.rename String.toList) := nofun
  rw [rename, List.mem_map, Statement.exists_transition_iff hother]
  cases t
  simp [Statement.rename, Transition.rename, String.toList_inj]

/-- Contents that agree still agree after the same replacement. -/
theorem Agrees.rename (h : contents.Agrees other) (f : String → String) :
    (contents.rename f).Agrees (other.rename f) where
  start_eq := by rw [Contents.rename, Contents.rename, h.start_eq]
  mem_statements_iff statement := by
    simp only [Contents.rename, List.mem_map, h.mem_statements_iff]

/-- Agreement is passed on. -/
theorem Agrees.trans {third : Contents} (h : contents.Agrees other) (h' : other.Agrees third) :
    contents.Agrees third :=
  ⟨h.start_eq.trans h'.start_eq, fun statement =>
    (h.mem_statements_iff statement).trans (h'.mem_statements_iff statement)⟩

end Contents

namespace NamedAutomaton

variable {L M : NamedAutomaton} {contents other : Contents} {label name : String} {q : Vertex}
variable {table : LabelTable} {statement : Statement} {statements : List Statement} {i : Nat}

/-- The name of the vertex that a label has. -/
def nameFor (L : NamedAutomaton) (label : String) : String :=
  L.name (L.labels.vertexOf label)

/-! ### Reading as looking up -/

/-- Adding a statement adds the fact about the vertices that its labels have from then on. -/
theorem automaton_addStatement (h : table.Extends (L.addStatement statement).labels) :
    (L.addStatement statement).automaton = L.automaton.addFact (statement.lookUp table) := by
  cases statement with
  | finish name =>
    rw [Statement.lookUp, LabelTable.Extends.vertexOf_eq h]
    rfl
  | transition t =>
    -- The table knows the source already when the target is asked for.
    have hsource : table.Extends (L.labels.intern (String.ofList t.source)).2 :=
      h.trans (LabelTable.extends_intern _ _)
    rw [Statement.lookUp, Transition.rename, hsource.vertexOf_eq, LabelTable.Extends.vertexOf_eq h]
    rfl

/-- Adding statements adds the facts about the vertices that their labels have in the end. -/
theorem automaton_foldl_addStatement
    (h : table.Extends (statements.foldl addStatement L).labels) :
    (statements.foldl addStatement L).automaton =
      (statements.map (Statement.lookUp table)).foldl Automaton.addFact L.automaton := by
  induction statements generalizing L with
  | nil => rfl
  | cons first rest ih =>
    have hfirst := h.trans (extends_foldl_addStatement (L.addStatement first) rest).labels
    rw [List.foldl_cons, ih h, automaton_addStatement hfirst, List.map_cons, List.foldl_cons]

/-- Reading by labels gives the facts about the vertices that the labels have in the end. -/
theorem automaton_ofContents (contents : Contents) :
    (ofContents contents).automaton =
      Automaton.ofFacts ((ofContents contents).labels.vertexOf (String.ofList contents.start))
        (contents.statements.map (Statement.lookUp (ofContents contents).labels)) := by
  have hstart : (ofContents contents).labels.Extends
      ((∅ : LabelTable).intern (String.ofList contents.start)).2 :=
    (extends_foldl_addStatement _ contents.statements).labels
  rw [hstart.vertexOf_eq]
  exact automaton_foldl_addStatement (LabelTable.Extends.refl _)

/-- The vertices are those of the labels that the document asks for. -/
theorem contains_ofContents :
    (ofContents contents).automaton.contains q = true ↔
      ∃ label ∈ contents.labels, (ofContents contents).labels.vertexOf label = q := by
  rw [automaton_ofContents, Automaton.contains_ofFacts, Contents.labels]
  simp only [List.mem_map, exists_exists_and_eq_and, Statement.vertices_lookUp, List.mem_cons,
    List.mem_flatMap, or_and_right, exists_or]
  grind

/-- The finishes are the vertices of the labels that are stated to be finishes. -/
theorem isFinish_ofContents :
    (ofContents contents).automaton.isFinish q = true ↔
      ∃ written, .finish written ∈ contents.statements ∧
        (ofContents contents).labels.vertexOf (String.ofList written) = q := by
  have hother (t : Transition (List Char)) :
      (Statement.transition t).lookUp (ofContents contents).labels ≠ .finish q := nofun
  rw [automaton_ofContents, Automaton.isFinish_ofFacts, List.mem_map,
    Statement.exists_finish_iff hother]
  simp only [Statement.lookUp, Fact.finish.injEq]

/-- The transitions are those that are stated, between the vertices of their labels. -/
theorem mem_transitions_ofContents {u : Transition Vertex} :
    u ∈ (ofContents contents).automaton.transitions ↔
      ∃ written, .transition written ∈ contents.statements ∧
        written.rename (fun name =>
          (ofContents contents).labels.vertexOf (String.ofList name)) = u := by
  have hother (name : List Char) :
      (Statement.finish name).lookUp (ofContents contents).labels ≠ .transition u := nofun
  rw [automaton_ofContents, Automaton.mem_transitions_ofFacts, List.mem_map,
    Statement.exists_transition_iff hother]
  simp only [Statement.lookUp, Fact.transition.injEq]

/-! ### What is read, by names -/

/-- By names, what is read is what the document states after every label was replaced by the name that
it goes by. -/
theorem isDescribedBy_rename (contents : Contents) :
    (ofContents contents).IsDescribedBy (contents.rename (ofContents contents).nameFor) where
  startName_eq := by
    rw [startName, Contents.rename, String.ofList_toList, automaton_ofContents,
      Automaton.start_ofFacts, nameFor]
  mem_vertexNames_iff name := by
    rw [mem_vertexNames, Contents.labels_rename, List.mem_map]
    simp only [contains_ofContents, nameFor, exists_exists_and_eq_and]
  mem_finishNames_iff name := by
    rw [mem_finishNames, Contents.finish_mem_rename]
    simp only [isFinish_ofContents, nameFor, exists_exists_and_eq_and]
  mem_transitionsByName_iff t := by
    rw [mem_transitionsByName, Contents.transition_mem_rename]
    simp only [mem_transitions_ofContents, exists_exists_and_eq_and]
    rfl

/-- Documents are read to equal automata exactly if they state the same after every label was replaced
by the name that it goes by. -/
theorem beq_ofContents_iff :
    (ofContents contents == ofContents other) = true ↔
      (contents.rename (ofContents contents).nameFor).Agrees
        (other.rename (ofContents other).nameFor) := by
  have hcontents := isDescribedBy_rename contents
  have hother := isDescribedBy_rename other
  apply Iff.intro
  · intro h
    obtain ⟨hstart, _, hfinishes, htransitions⟩ := beq_iff.1 h
    have hwritten : (ofContents contents).contents = (ofContents other).contents := by
      rw [NamedAutomaton.contents, hstart, hfinishes, htransitions]
      rfl
    exact hcontents.agrees.symm.trans (hwritten ▸ hother.agrees)
  · intro h
    exact (hcontents.of_agrees h).beq hother

/-! ### The names that labels go by -/

/-- Every label goes by the name of the label whose place is the remainder of its own by the number of
identifiers. -/
def NamesByRemainder (L : NamedAutomaton) : Prop :=
  ∀ i label, L.labels.labels[i]? = some label →
    L.labels.labels[i % UInt32.size]? = some (L.nameFor label)

/-- So it is in what is read, however many labels there are. -/
theorem namesByRemainder_ofContents (contents : Contents) :
    (ofContents contents).NamesByRemainder := by
  intro i label hi
  have hnumbered : (ofContents contents).labels.IsNumbered := by
    rw [labels_ofContents]
    exact LabelTable.isNumbered_empty.internAll _
  have hvertex : (ofContents contents).labels.vertexOf label = UInt32.ofNat i := by
    rw [LabelTable.vertexOf, (hnumbered label _).2 ⟨i, hi, rfl⟩, Option.getD_some]
  have hlt : i % UInt32.size < (ofContents contents).labels.labels.length :=
    Nat.lt_of_le_of_lt (Nat.mod_le _ _) (List.getElem?_eq_some_iff.1 hi).1
  rw [nameFor, hvertex, name, LabelTable.labelOf?, UInt32.toNat_ofNat', List.getElem?_eq_getElem hlt]
  rfl

/-- One of the first labels, as many as there are identifiers, goes by its own name. -/
theorem NamesByRemainder.nameFor_eq_self (hL : L.NamesByRemainder)
    (hi : L.labels.labels[i]? = some label) (hlt : i < UInt32.size) : L.nameFor label = label := by
  have hname := hL i label hi
  rw [Nat.mod_eq_of_lt hlt, hi, Option.some.injEq] at hname
  exact hname.symm

/-! ### More labels than identifiers -/

section Finishes

variable {start : List Char} {finishes : List (List Char)}

/-- What a document states that has finishes only. -/
def finishesOnly (start : List Char) (finishes : List (List Char)) : Contents :=
  ⟨start, finishes.map Statement.finish⟩

/-- Distinct names get their places in the order of the lines. -/
theorem labels_ofContents_finishesOnly (hnodup : (start :: finishes).Nodup) :
    (ofContents (finishesOnly start finishes)).labels.labels =
      (start :: finishes).map String.ofList := by
  have hlabels : (finishesOnly start finishes).labels = (start :: finishes).map String.ofList := by
    rw [List.map_cons, List.map_eq_flatMap, Contents.labels, finishesOnly, List.flatMap_map]
    rfl
  have hdistinct : ((start :: finishes).map String.ofList).Nodup :=
    hnodup.map fun _ _ => String.ofList_inj.1
  have hnew : ∀ label ∈ (start :: finishes).map String.ofList, label ∉ (∅ : LabelTable).labels :=
    fun _ _ => List.not_mem_nil
  rw [labels_ofContents, hlabels, LabelTable.isIndexed_empty.labels_internAll hdistinct hnew]
  exact List.nil_append _

/-- With one label more than there are identifiers, none goes by the name of the last one. -/
theorem nameFor_ne_last {last : List Char} (hnodup : (start :: (finishes ++ [last])).Nodup)
    (hlength : (start :: finishes).length = UInt32.size) {finish : List Char}
    (hfinish : finish ∈ finishes ++ [last]) :
    (ofContents (finishesOnly start (finishes ++ [last]))).nameFor (String.ofList finish) ≠
      String.ofList last := by
  have hlabels := labels_ofContents_finishesOnly hnodup
  have hdistinct : ((start :: (finishes ++ [last])).map String.ofList).Nodup :=
    hnodup.map fun _ _ => String.ofList_inj.1
  have hplace : ((start :: (finishes ++ [last])).map String.ofList)[UInt32.size]? =
      some (String.ofList last) := by
    rw [← hlength, List.getElem?_map, ← List.cons_append, List.getElem?_concat_length,
      Option.map_some]
  have hlabel : String.ofList finish ∈ (start :: (finishes ++ [last])).map String.ofList :=
    List.mem_map_of_mem (List.mem_cons_of_mem _ hfinish)
  obtain ⟨i, hi⟩ := List.mem_iff_getElem?.1 hlabel
  rw [← hlabels] at hi
  have hremainder := namesByRemainder_ofContents _ i _ hi
  intro hname
  rw [hlabels, hname, ← hplace] at hremainder
  have hlt : UInt32.size < ((start :: (finishes ++ [last])).map String.ofList).length :=
    (List.getElem?_eq_some_iff.1 hplace).1
  have hsame : UInt32.size = i % UInt32.size := (List.getElem?_inj hlt hdistinct).1 hremainder.symm
  exact absurd hsame (Nat.ne_of_gt (Nat.mod_lt i (by decide)))

/-- With one label more than there are identifiers, the last finish goes by the name of the start. If
the finishes are listed the other way round, it is the first of them and goes by its own name. -/
theorem not_beq_ofContents_reverse (hnodup : (start :: finishes).Nodup)
    (hlength : finishes.length = UInt32.size) :
    (ofContents (finishesOnly start finishes.reverse) ==
      ofContents (finishesOnly start finishes)) = false := by
  obtain ⟨front, last, rfl⟩ : ∃ front last, finishes = front ++ [last] := by
    rcases List.eq_nil_or_concat finishes with rfl | ⟨front, last, rfl⟩
    · cases hlength
    · exact ⟨front, last, List.concat_eq_append⟩
  have hreversed : (start :: (front ++ [last]).reverse).Nodup := by
    rwa [List.nodup_cons, List.mem_reverse, List.nodup_reverse, ← List.nodup_cons]
  -- Listed the other way round, the last finish has the number one.
  have hown : (ofContents (finishesOnly start (front ++ [last]).reverse)).nameFor
      (String.ofList last) = String.ofList last := by
    have hone : (ofContents (finishesOnly start (front ++ [last]).reverse)).labels.labels[1]? =
        some (String.ofList last) := by
      rw [labels_ofContents_finishesOnly hreversed, List.reverse_concat]
      rfl
    exact (namesByRemainder_ofContents _).nameFor_eq_self hone (by decide)
  rw [Bool.eq_false_iff]
  intro heq
  have hstated : .finish (String.ofList last).toList ∈
      ((finishesOnly start (front ++ [last]).reverse).rename
        (ofContents (finishesOnly start (front ++ [last]).reverse)).nameFor).statements :=
    Contents.finish_mem_rename.2 ⟨last, List.mem_map_of_mem (by simp), hown⟩
  rw [(beq_ofContents_iff.1 heq).mem_statements_iff, Contents.finish_mem_rename] at hstated
  obtain ⟨finish, hfinish, hname⟩ := hstated
  obtain ⟨_, hmem, hwritten⟩ := List.mem_map.1 hfinish
  cases hwritten
  have hsize : (start :: front).length = UInt32.size := by
    rwa [List.length_append, List.length_singleton] at hlength
  exact nameFor_ne_last hnodup hsize hmem hname

end Finishes

end NamedAutomaton

end Recognizer
