import Recognizer.Proofs.Document.Layout

/-!
# The lines of a document with contents

Which lines state something, and what. A line states a transition exactly if it is the line on which
the transition is written, where the names of the ends need only be free of spaces
(`transitionOf?_eq_some_iff`): unlike the names on the lines before, they may be empty or hold other
white space, and the symbol may be any character.

Hence the statements of a document with contents can be read off its sections
(`Contents.ofLines?_eq_some`).
-/

namespace Recognizer

open Text Document

namespace Text

variable {text line first rest : List Char}

/-- A text is cut at its first space, or not at all. -/
theorem cutAtSpace_cases (line : List Char) :
    (' ' ∉ line ∧ cutAtSpace line = (line, none)) ∨
      ∃ first rest, ' ' ∉ first ∧ line = first ++ ' ' :: rest ∧
        cutAtSpace line = (first, some rest) := by
  by_cases h : ' ' ∈ line
  · obtain ⟨first, rest, rfl, hfirst⟩ := List.eq_append_cons_of_mem h
    exact Or.inr ⟨first, rest, hfirst, rfl, cutAtSpace_append hfirst rest⟩
  · exact Or.inl ⟨h, cutAtSpace_eq_self h⟩

/-- No piece between two separators holds the separator. -/
theorem not_mem_of_mem_splitOn {c : Char} {piece : List Char} (h : piece ∈ text.splitOn c) :
    c ∉ piece := by
  intro hc
  simpa using eq_false_of_mem_splitOnP h c hc

/-- No line holds the line feed that ends it. -/
theorem not_mem_lineFeed_of_mem_lines (h : line ∈ lines text) : '\n' ∉ line := by
  rw [lines, List.mem_append, List.mem_map] at h
  rcases h with ⟨piece, hmem, rfl⟩ | h
  · have hfree := not_mem_of_mem_splitOn (List.dropLast_subset _ hmem)
    rw [dropCarriageReturn]
    split
    · exact fun hfeed => hfree (List.dropLast_subset _ hfeed)
    · exact hfree
  · rw [List.mem_filter, Option.mem_toList] at h
    exact not_mem_of_mem_splitOn (List.mem_of_getLast? h.1)

end Text

namespace Document

/-- The lines of a document that state its transitions. -/
def transitionLines (text : String) : List (List Char) :=
  Contents.transitionSection ((lines text.toList).drop 2)

/-- No space stands in the names of the ends of a transition, so its line is cut where they end. -/
structure Spaceless (t : Transition (List Char)) : Prop where
  source : ' ' ∉ t.source
  target : ' ' ∉ t.target

/-- The lines of transitions are lines of the text. -/
theorem mem_lines_of_mem_transitionLines {text : String} {line : List Char}
    (h : line ∈ transitionLines text) : line ∈ lines text.toList := by
  have hsection := List.mem_of_mem_tail (List.mem_of_mem_filter h)
  exact List.mem_of_mem_drop (List.dropWhile_subset _ hsection)

/-- A name is a label that can be written. -/
theorem isName_toList_iff {label : String} :
    IsName label.toList ↔ isWritableLabel label = true := by
  simp only [isWritableLabel, Bool.and_eq_true, Bool.not_eq_true', List.isEmpty_eq_false_iff,
    List.any_eq_false, Bool.not_eq_true]
  exact ⟨fun h => ⟨h.ne_nil, h.not_isWhiteSpace⟩, fun h => ⟨h.1, h.2⟩⟩

end Document

namespace Contents

variable {line name : List Char} {text : List (List Char)} {t : Transition (List Char)}
variable {statement : Statement} {statements : List Statement} {contents : Contents}

/-- A field is a name. -/
theorem isName_of_fields_eq (h : fields line = [name]) : IsName name := by
  have hmem : name ∈ fields line := by
    rw [h]
    exact List.mem_singleton_self name
  exact ⟨(mem_fields hmem).1, (mem_fields hmem).2⟩

/-- A line states a finish if it has a single field. -/
theorem finishOf?_eq_some_iff :
    finishOf? line = some statement ↔ ∃ name, fields line = [name] ∧ statement = .finish name := by
  rw [finishOf?]
  split
  · next field hfield => simp [hfield, eq_comm]
  · next hfields => simpa using fun name hname => absurd hname (hfields name)

/-- A line states a transition if the transition is written so. -/
theorem transitionOf?_eq_some_iff :
    transitionOf? line = some statement ↔
      ∃ t, statement = .transition t ∧ transitionLine t = line ∧ Spaceless t := by
  constructor
  · intro h
    rcases cutAtSpace_cases line with ⟨_, hcut⟩ | ⟨source, rest, hsource, rfl, hcut⟩
    · simp [transitionOf?, hcut] at h
    · rcases cutAtSpace_cases rest with ⟨htarget, hcut'⟩ | ⟨target, last, htarget, rfl, hcut'⟩
      · simp only [transitionOf?, hcut, hcut', Option.some.injEq] at h
        exact ⟨_, h.symm, by simp [transitionLine], ⟨hsource, htarget⟩⟩
      · cases last with
        | nil => simp [transitionOf?, hcut, hcut'] at h
        | cons c more =>
          cases more with
          | nil =>
            simp only [transitionOf?, hcut, hcut', Option.some.injEq] at h
            exact ⟨_, h.symm, by simp [transitionLine], ⟨hsource, htarget⟩⟩
          | cons d more => simp [transitionOf?, hcut, hcut'] at h
  · rintro ⟨t, rfl, rfl, ht⟩
    exact transitionOf?_transitionLine ht.source ht.target

/-- The finish section states finishes only. -/
theorem exists_of_mapM_finishOf? (h : text.mapM finishOf? = some statements) :
    ∀ statement ∈ statements, ∃ name, IsName name ∧ statement = .finish name := by
  intro statement hmem
  obtain ⟨line, _, hline⟩ := ((mem_of_mapM_eq_some h).1 statement).1 hmem
  obtain ⟨name, hname, hstatement⟩ := finishOf?_eq_some_iff.1 hline
  exact ⟨name, isName_of_fields_eq hname, hstatement⟩

/-- The transition section states the transitions that are written there, and each of its lines is
where one of them is written. -/
theorem mem_of_mapM_transitionOf? (h : text.mapM transitionOf? = some statements) :
    (∀ statement, statement ∈ statements ↔ ∃ t, statement = .transition t ∧
        transitionLine t ∈ text ∧ Spaceless t) ∧
      ∀ line ∈ text, ∃ t, .transition t ∈ statements ∧ transitionLine t = line := by
  obtain ⟨hmem, hdecoded⟩ := mem_of_mapM_eq_some h
  constructor
  · intro statement
    simp only [hmem, transitionOf?_eq_some_iff]
    constructor
    · rintro ⟨_, hline, t, rfl, rfl, hnames⟩
      exact ⟨t, rfl, hline, hnames⟩
    · rintro ⟨t, rfl, hline, hnames⟩
      exact ⟨_, hline, t, rfl, rfl, hnames⟩
  · intro line hline
    obtain ⟨_, hstatement, hstated⟩ := hdecoded line hline
    obtain ⟨t, rfl, ht, _⟩ := transitionOf?_eq_some_iff.1 hstated
    exact ⟨t, hstatement, ht⟩

/-- What statements say about the lines that they come from: finishes have names, and the transitions
are those that are written in the transition section, where no line is left out. -/
structure StatedBy (statements : List Statement) (transitionLines : List (List Char)) : Prop where
  isName_finish : ∀ name, .finish name ∈ statements → IsName name
  transition_iff : ∀ t, .transition t ∈ statements ↔ transitionLine t ∈ transitionLines ∧ Spaceless t
  exists_transition : ∀ line ∈ transitionLines,
    ∃ t, .transition t ∈ statements ∧ transitionLine t = line

/-- The lines after the start hold an empty one, the finishes and the transitions. -/
theorem statementsOf?_eq_some (h : statementsOf? text = some statements) :
    StatedBy statements (transitionSection text.tail) := by
  cases text with
  | nil =>
    cases h
    constructor <;> simp [transitionSection]
  | cons separator rest =>
    rw [statementsOf?] at h
    split at h
    · simp only [bind, Option.bind_eq_some_iff, pure, Option.some.injEq] at h
      obtain ⟨finishes, hfinishes, transitions, htransitions, rfl⟩ := h
      have hfinish := exists_of_mapM_finishOf? hfinishes
      obtain ⟨hmem, hwritten⟩ := mem_of_mapM_transitionOf? htransitions
      constructor
      · intro name hname
        rw [List.mem_append, hmem] at hname
        rcases hname with hname | ⟨_, heq, _⟩
        · obtain ⟨_, hisName, heq⟩ := hfinish _ hname
          cases heq
          exact hisName
        · cases heq
      · intro t
        have hnot : .transition t ∉ finishes := by
          intro ht
          obtain ⟨_, _, heq⟩ := hfinish _ ht
          cases heq
        simp [hnot, hmem]
      · intro line hline
        obtain ⟨t, ht, hline⟩ := hwritten line hline
        exact ⟨t, List.mem_append_right _ ht, hline⟩
    · cases h

/-- A document with contents names its start, and states what its sections say. -/
theorem ofLines?_eq_some (h : ofLines? text = some contents) :
    IsName contents.start ∧ StatedBy contents.statements (transitionSection (text.drop 2)) := by
  cases text with
  | nil => cases h
  | cons first rest =>
    rw [ofLines?] at h
    split at h
    · next start hstart =>
      obtain ⟨statements, hstatements, rfl⟩ := Option.map_eq_some_iff.1 h
      rw [List.drop_succ_cons, List.drop_one]
      exact ⟨isName_of_fields_eq hstart, statementsOf?_eq_some hstatements⟩
    · cases h

end Contents

end Recognizer
