import Recognizer.Proofs.Document.LineByLine

/-!
# Which documents are read

A text is read as an automaton exactly if each of its lines is permitted where it stands, and then
the automaton has what the lines state and nothing else. Otherwise the report is about the first line
that is not permitted (`read_outcome`).

What the reader does with a single line decides everything (`judges_readLine`): the lines before a
failure are all permitted, so the line that fails is the first bad one.
-/

namespace Recognizer

open Text Document

namespace Document

open Outline Contents Automaton

variable {α β : Type} {part : Part} {number : Nat} {line : List Char} {q : Vertex} {e : TextError}
variable {f : Fact} {text : List (List Char)}

/-! ### Reports on lines -/

/-- Whatever failure is reported, it is reported about the line with the given number. -/
def ReportsOn (number : Nat) (x : Except TextError α) : Prop :=
  ∀ e, x = .error e → e.line? = some number

/-- Success reports nothing. -/
theorem ReportsOn.ok {a : α} : ReportsOn number (.ok a) := by
  intro _ heq
  cases heq

/-- A failure with the number of the line is a report on it. -/
theorem ReportsOn.error (h : e.line? = some number) :
    ReportsOn number (.error e : Except TextError α) := by
  intro _ heq
  cases heq
  exact h

/-- What comes one after the other reports on a line if both do. -/
theorem ReportsOn.bind {x : Except TextError α} {g : α → Except TextError β}
    (hx : ReportsOn number x) (hg : ∀ a, ReportsOn number (g a)) : ReportsOn number (x >>= g) := by
  cases x with
  | error e => exact .error (hx e rfl)
  | ok a => exact hg a

/-- A name that is no numeral is reported on the line where it stands. -/
theorem reportsOn_vertexOfNumeral {name : List Char} :
    ReportsOn number (vertexOfNumeral number name) := by
  rw [vertexOfNumeral]
  cases Numeral.read name with
  | none => exact .error rfl
  | some q => exact .ok

/-- A statement that does not resolve is reported on the line where it stands. -/
theorem reportsOn_resolve {statement : Statement} : ReportsOn number (statement.resolve number) := by
  cases statement with
  | finish name => exact .bind reportsOn_vertexOfNumeral fun _ => .ok
  | transition t =>
    exact .bind reportsOn_vertexOfNumeral fun _ => .bind reportsOn_vertexOfNumeral fun _ => .ok

/-- A line with other than one field is reported with its number. -/
theorem reportsOn_onlyField : ReportsOn number (onlyField (number, line)) := by
  rw [onlyField]
  split
  · exact .ok
  · exact .error rfl

/-- A field that is no symbol is reported on the line where it stands. -/
theorem reportsOn_readSymbol {symbol : List Char} : ReportsOn number (readSymbol number symbol) := by
  unfold readSymbol
  split
  · exact .ok
  · exact .error rfl

/-- A line that is no transition is reported with its number. -/
theorem reportsOn_readTransition :
    ReportsOn number (factOfEntry (number, readTransition (number, line))) := by
  apply ReportsOn.bind
  · rw [readTransition]
    split
    · exact .error rfl
    · split
      · exact .ok
      · exact .bind reportsOn_readSymbol fun _ => .ok
  · exact fun _ => reportsOn_resolve

/-- A line that is no vertex is reported with its number. -/
theorem reportsOn_vertexOnLine : ReportsOn number (vertexOnLine (number, line)) :=
  .bind reportsOn_onlyField fun _ => reportsOn_vertexOfNumeral

/-- A line that is no finish is reported with its number. -/
theorem reportsOn_readFinish :
    ReportsOn number (factOfEntry (number, readFinish (number, line))) :=
  .bind (.bind reportsOn_onlyField fun _ => .ok) fun _ => reportsOn_resolve

/-! ### Single lines -/

/-- The vertex lines are those on which a vertex is read. -/
theorem vertexOnLine_eq_ok_iff : vertexOnLine (number, line) = .ok q ↔ IsVertexLine line q := by
  rw [isVertexLine_iff, ← toOption_eq_some_iff, vertexOnLine, toOption_bind,
    Option.bind_eq_some_iff]
  simp only [toOption_vertexOfNumeral, toOption_eq_some_iff]
  apply exists_congr
  intro name
  apply and_congr_left
  intro _
  rw [onlyField]
  split
  · next hfield => simp [hfield]
  · next hfields => simpa using hfields name

/-- What is read from a line of the finish section is what the line states. -/
theorem readFinish_eq_ok_iff :
    factOfEntry (number, readFinish (number, line)) = .ok f ↔ States .finishes line f := by
  rw [← toOption_eq_some_iff, factOfEntry, toOption_bind, toOption_readFinish]
  simp only [toOption_resolve, Option.bind_eq_some_iff, finishOf?_eq_some_iff]
  constructor
  · intro h
    obtain ⟨_, ⟨name, hname, rfl⟩, hresolve⟩ := h
    obtain ⟨q, hq, rfl⟩ := Option.map_eq_some_iff.1 hresolve
    exact .finish (isVertexLine_iff.2 ⟨name, hname, hq⟩)
  · intro h
    cases h with
    | finish h =>
      obtain ⟨name, hname, hq⟩ := isVertexLine_iff.1 h
      exact ⟨_, ⟨name, hname, rfl⟩, by rw [Statement.resolve?, hq]; rfl⟩

/-- What is read from a line of the transition section is what the line states. -/
theorem readTransition_eq_ok_iff :
    factOfEntry (number, readTransition (number, line)) = .ok f ↔ States .transitions line f := by
  rw [← toOption_eq_some_iff, factOfEntry, toOption_bind, toOption_readTransition]
  simp only [toOption_resolve, Option.bind_eq_some_iff, transitionOf?_eq_some_iff]
  constructor
  · intro h
    obtain ⟨_, ⟨named, rfl, hline⟩, hresolve⟩ := h
    obtain ⟨t, rfl, ht⟩ := resolve?_transition_eq_some_iff.1 hresolve
    exact .transition (isTransitionLine_iff.2 ⟨named, hline.1, hline.2, ht⟩)
  · intro h
    cases h with
    | transition h =>
      obtain ⟨named, hline, hnamed, ht⟩ := isTransitionLine_iff.1 h
      exact ⟨_, ⟨named, rfl, hline, hnamed⟩, resolve?_transition_eq_some_iff.2 ⟨_, rfl, ht⟩⟩

/-- A line that is read is permitted and states what is read. A line that is not read is not
permitted, and its number is reported. -/
def Judges (part : Part) (number : Nat) (line : List Char) : Except TextError (Option Fact) → Prop
  | .ok fact => Permits part line ∧ ∀ f, States part line f ↔ fact = some f
  | .error e => ¬Permits part line ∧ e.line? = some number

/-- A reader of facts judges the lines that have to state one. -/
theorem judges_map {read : Except TextError Fact} (hread : ∀ f, read = .ok f ↔ States part line f)
    (hreports : ReportsOn number read) (hpermits : Permits part line → ∃ f, States part line f) :
    Judges part number line (read.map some) := by
  cases read with
  | error e =>
    refine ⟨fun h => ?_, hreports e rfl⟩
    obtain ⟨f, hf⟩ := hpermits h
    cases (hread f).2 hf
  | ok g =>
    refine ⟨.stated ((hread g).1 rfl), fun f => ?_⟩
    rw [← hread, Except.ok.injEq, Option.some.injEq]

/-- A line that states nothing may still be permitted. -/
theorem judges_none (hpermits : Permits part line) (hstates : ∀ f, ¬States part line f) :
    Judges part number line (.ok none) := by
  refine ⟨hpermits, fun f => iff_of_false (hstates f) ?_⟩
  exact (Option.some_ne_none f).symm

/-- Each line is judged by the rules of its part. -/
theorem judges_readLine (part : Part) (number : Nat) (line : List Char) :
    Judges part number line (readLine part (number, line)) := by
  cases part with
  | start =>
    rw [readLine]
    cases hvertex : vertexOnLine (number, line) with
    | error e =>
      refine ⟨fun h => ?_, reportsOn_vertexOnLine e hvertex⟩
      cases h with
      | start hq =>
        rw [vertexOnLine_eq_ok_iff.2 hq] at hvertex
        cases hvertex
      | stated hstated => cases hstated
    | ok q =>
      refine judges_none (.start (vertexOnLine_eq_ok_iff.1 hvertex)) fun f h => ?_
      cases h
  | separator =>
    cases line with
    | nil =>
      refine judges_none .separator fun f h => ?_
      cases h
    | cons c more =>
      refine ⟨fun h => ?_, rfl⟩
      cases h with
      | stated hstated => cases hstated
  | finishes =>
    cases line with
    | nil => exact judges_none .endOfFinishes fun f => not_states_finishes_nil
    | cons c more =>
      refine judges_map (fun f => readFinish_eq_ok_iff) reportsOn_readFinish fun h => ?_
      cases h with
      | stated hstated => exact ⟨_, hstated⟩
  | transitions =>
    rw [readLine]
    split
    · next hblank =>
      exact judges_none (.blank hblank) fun f => not_states_transitions_of_isBlank hblank
    · next hblank =>
      refine judges_map (fun f => readTransition_eq_ok_iff) reportsOn_readTransition fun h => ?_
      cases h with
      | blank h => exact absurd h hblank
      | stated hstated => exact ⟨_, hstated⟩

/-! ### All lines -/

/-- A first line that is not permitted is the first bad one. -/
theorem IsFirstBad.zero {entry : Part × List Char} {rest : List (Part × List Char)}
    (h : ¬Permits entry.1 entry.2) : IsFirstBad (entry :: rest) 0 where
  bad := ⟨entry, rfl, h⟩
  earlier := List.forall_mem_nil _

/-- A permitted line in front moves the first bad one down by one. -/
theorem IsFirstBad.succ {entry : Part × List Char} {rest : List (Part × List Char)} {n : Nat}
    (h : Permits entry.1 entry.2) (hrest : IsFirstBad rest n) : IsFirstBad (entry :: rest) (n + 1) where
  bad := hrest.bad
  earlier := by
    rw [List.take_succ_cons, List.forall_mem_cons]
    exact ⟨h, hrest.earlier⟩

/-- Lines that are read are permitted and state what is read. If lines are not read, the report has
the number of the first that is not permitted. -/
def JudgesAll (part : Part) (number : Nat) (text : List (List Char)) :
    Except TextError (List Fact) → Prop
  | .ok facts => (∀ entry ∈ inParts part text, Permits entry.1 entry.2) ∧
      ∀ f, f ∈ facts ↔ ∃ entry ∈ inParts part text, States entry.1 entry.2 f
  | .error e => ∃ n, IsFirstBad (inParts part text) n ∧ e.line? = some (number + n)

/-- What `readLines` reads or reports is right about all lines. -/
theorem judgesAll_readLines (part : Part) (number : Nat) (text : List (List Char)) :
    JudgesAll part number text (readLines part number text) := by
  induction text generalizing part number with
  | nil => simp [JudgesAll, readLines, inParts]
  | cons line rest ih =>
    rw [readLines]
    have hline := judges_readLine part number line
    generalize readLine part (number, line) = read at hline
    cases read with
    | error e => exact ⟨0, .zero hline.1, hline.2⟩
    | ok fact =>
      have hrest := ih (part.next line) (number + 1)
      generalize readLines (part.next line) (number + 1) rest = readRest at hrest
      cases readRest with
      | error e =>
        obtain ⟨n, hbad, hnumber⟩ := hrest
        refine ⟨n + 1, .succ hline.1 hbad, ?_⟩
        rw [hnumber, Nat.add_assoc, Nat.add_comm 1 n]
      | ok facts =>
        obtain ⟨hpermits, hstates⟩ := hrest
        refine ⟨?_, fun f => ?_⟩
        · rw [inParts, List.forall_mem_cons]
          exact ⟨hline.1, hpermits⟩
        · rw [List.mem_append, hstates, Option.mem_toList, ← hline.2]
          simp only [inParts, List.mem_cons, exists_eq_or_imp]

/-! ### Whole documents -/

/-- A text on which there is a report is not readable. -/
theorem not_isReadable_of_isReport {e : TextError} (h : IsReport text e) : ¬IsReadable text := by
  intro hreadable
  cases h with
  | noStart hblank =>
    obtain ⟨first, rest, rfl⟩ := List.exists_cons_of_ne_nil hreadable.ne_nil
    cases hreadable.permits (.start, first) List.mem_cons_self with
    | start hq =>
      have hnot := not_isBlank_of_isVertexLine hq
      rw [hblank first rfl] at hnot
      cases hnot
    | stated hstated => cases hstated
  | line _ _ hbad _ =>
    obtain ⟨entry, hentry, hnot⟩ := hbad.bad
    exact hnot (hreadable.permits entry (List.mem_of_getElem? hentry))

end Document

namespace Automaton

variable {A : Automaton} {text : List (List Char)}

/-- The facts of lines of all parts make up the automaton that the lines state. -/
theorem isStatedBy_ofFacts {first : List Char} {start : Vertex} {facts : List Fact}
    (hfirst : text.head? = some first) (hstart : IsVertexLine first start)
    (hfacts : ∀ f, f ∈ facts ↔ ∃ entry ∈ inParts .start text, States entry.1 entry.2 f) :
    IsStatedBy (ofFacts start facts) text where
  start := ⟨first, hfirst, by rwa [start_ofFacts]⟩
  isFinish_iff q := by
    rw [isFinish_ofFacts, hfacts]
    constructor
    · intro h
      obtain ⟨⟨part, line⟩, hentry, hstates⟩ := h
      cases hstates with
      | finish hline => exact ⟨line, hentry, hline⟩
    · intro h
      obtain ⟨line, hentry, hline⟩ := h
      exact ⟨_, hentry, .finish hline⟩
  mem_transitions_iff t := by
    rw [mem_transitions_ofFacts, hfacts]
    constructor
    · intro h
      obtain ⟨⟨part, line⟩, hentry, hstates⟩ := h
      cases hstates with
      | transition hline => exact ⟨line, hentry, hline⟩
    · intro h
      obtain ⟨line, hentry, hline⟩ := h
      exact ⟨_, hentry, .transition hline⟩
  contains_iff q := by
    rw [← mentions_iff]
    exact ⟨mentions_ofFacts, wellFormed_ofFacts.contains_of_mentions⟩

/-- If the first line is not blank, the failures of a document are those of its lines, and so are its
facts. -/
theorem exists_read_eq {document : String} {first : List Char} {rest : List (List Char)}
    (hlines : lines document.toList = first :: rest) (hblank : isBlank first = false) :
    ∃ start, read document = (readLines .start 1 (first :: rest)).map (ofFacts start) ∧
      ∀ facts, readLines .start 1 (first :: rest) = .ok facts → IsVertexLine first start := by
  rw [read_eq, hlines]
  simp only [hblank, Bool.false_eq_true, if_false]
  cases hstart : vertexOnLine (1, first) with
  | error e =>
    have hall : readLines .start 1 (first :: rest) = .error e := by
      rw [readLines, readLine, hstart]
      rfl
    refine ⟨0, by rw [hall]; rfl, fun facts hfacts => ?_⟩
    rw [hall] at hfacts
    cases hfacts
  | ok start =>
    have hall : readLines .start 1 (first :: rest) = readLines .separator 2 rest := by
      rw [readLines, readLine, hstart]
      exact bind_pure (readLines .separator 2 rest)
    refine ⟨start, ?_, fun _ _ => vertexOnLine_eq_ok_iff.1 hstart⟩
    rw [hall]
    rfl

/-- What becomes of a text, given what its lines are. -/
theorem read_judged (document : String) :
    match read document with
    | .ok A => IsReadable (lines document.toList) ∧ IsStatedBy A (lines document.toList)
    | .error e => IsReport (lines document.toList) e := by
  cases hlines : lines document.toList with
  | nil =>
    rw [read_eq, hlines]
    apply IsReport.noStart
    intro _ hfirst
    cases hfirst
  | cons first rest =>
    cases hblank : isBlank first with
    | true =>
      rw [read_eq, hlines]
      simp only [hblank, if_true]
      apply IsReport.noStart
      intro _ hfirst
      cases hfirst
      exact hblank
    | false =>
      obtain ⟨start, hread, hstart⟩ := exists_read_eq hlines hblank
      have hjudged := judgesAll_readLines .start 1 (first :: rest)
      rw [hread]
      cases hall : readLines .start 1 (first :: rest) with
      | error e =>
        rw [hall] at hjudged
        obtain ⟨n, hbad, hnumber⟩ := hjudged
        exact .line rfl hblank hbad (by rw [hnumber, Nat.add_comm])
      | ok facts =>
        rw [hall] at hjudged
        obtain ⟨hpermits, hfacts⟩ := hjudged
        exact ⟨⟨List.cons_ne_nil _ _, hpermits⟩, isStatedBy_ofFacts rfl (hstart facts hall) hfacts⟩

/-- A text is read exactly if all of its lines are permitted where they stand. The automaton has what
the lines state and nothing else. A text that is not read has no start, or the report has the number
of the first line that is not permitted. -/
theorem read_outcome (text : String) :
    ((∃ A, read text = .ok A) ↔ IsReadable (lines text.toList)) ∧
      (∀ A, read text = .ok A → IsStatedBy A (lines text.toList)) ∧
      ∀ e, read text = .error e → IsReport (lines text.toList) e := by
  have hjudged := read_judged text
  cases hread : read text with
  | error e =>
    rw [hread] at hjudged
    refine ⟨iff_of_false ?_ (not_isReadable_of_isReport hjudged), ?_, ?_⟩
    · intro h
      obtain ⟨A, h⟩ := h
      cases h
    · intro _ h
      cases h
    · intro _ h
      cases h
      exact hjudged
  | ok A =>
    rw [hread] at hjudged
    refine ⟨iff_of_true ⟨A, rfl⟩ hjudged.1, ?_, ?_⟩
    · intro _ h
      cases h
      exact hjudged.2
    · intro _ h
      cases h

/-- A sign, leading zeros, white space around a finish and a blank line among the transitions do no
harm. A name that is no numeral is reported with the number of its line. -/
theorem read_outcome_signedLoop :
    (∃ A, read "+7\n\n 03\n\n7 3 a\n \n3 7\n" = .ok A ∧
        IsReadable (lines "+7\n\n 03\n\n7 3 a\n \n3 7\n".toList) ∧
        IsStatedBy A (lines "+7\n\n 03\n\n7 3 a\n \n3 7\n".toList)) ∧
      read "7\n\n3\nx\n" = .error (.badVertex 4 "x") ∧
        IsReport (lines "7\n\n3\nx\n".toList) (.badVertex 4 "x") := by
  have hread : read "+7\n\n 03\n\n7 3 a\n \n3 7\n" =
      .ok (ofFacts 7 [.finish 3, .transition ⟨7, some 'a', 3⟩, .transition ⟨3, none, 7⟩]) := rfl
  have hreport : read "7\n\n3\nx\n" = .error (.badVertex 4 "x") := rfl
  obtain ⟨hreadable, hstated, _⟩ := read_outcome "+7\n\n 03\n\n7 3 a\n \n3 7\n"
  obtain ⟨_, _, hreported⟩ := read_outcome "7\n\n3\nx\n"
  exact ⟨⟨_, hread, hreadable.1 ⟨_, hread⟩, hstated _ hread⟩, hreport, hreported _ hreport⟩

end Automaton

end Recognizer
