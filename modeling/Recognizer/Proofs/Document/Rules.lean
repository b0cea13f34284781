import Recognizer.Proofs.Document.Stability

/-!
# The rules for the lines of a numeric document

What a line may be depends on the part of the document that it stands in, and the part only on the
lines before it: the start, an empty line, finishes up to the next empty line, and transitions. The
rules say what the texts of lines look like, without regard to how a reader takes them apart.

Two facts tie them to the reader. A line has a single field exactly if white space alone stands around
a name (`fields_eq_singleton_iff`), and names of vertices are numerals (`Numeral.read_eq_some_iff`).
-/

namespace Recognizer

open Text

/-! ### Single fields -/

namespace Text

open Document

variable {line name before rest : List Char} {c : Char}

/-- White space separates fields. -/
theorem fields_append_cons (hc : isWhiteSpace c = true) :
    fields (before ++ c :: rest) = fields before ++ fields rest := by
  rw [fields, List.splitOnP_append_cons before rest hc, List.filter_append]
  rfl

/-- White space in front of a line makes no difference. -/
theorem fields_append_of_isBlank (h : isBlank before = true) :
    fields (before ++ rest) = fields rest := by
  induction before with
  | nil => rfl
  | cons c before ih =>
    rw [isBlank, List.all_cons, Bool.and_eq_true] at h
    rw [List.cons_append, ← List.nil_append (c :: (before ++ rest)), fields_append_cons h.1, ih h.2]
    rfl

/-- A line is cut at the first character that fails a test. -/
theorem exists_span (test : Char → Bool) (line : List Char) :
    ∃ front back, line = front ++ back ∧ (∀ c ∈ front, test c = true) ∧
      ∀ c ∈ back.head?, test c = false := by
  refine ⟨line.takeWhile test, line.dropWhile test, List.takeWhile_append_dropWhile.symm,
    fun c hc => List.mem_takeWhile_imp hc, fun c hc => ?_⟩
  have hhead := List.head?_dropWhile_not test line
  rw [Option.mem_def.1 hc] at hhead
  exact hhead

/-- The first field of a line that is not blank is a name after white space alone. -/
theorem exists_first_field (h : isBlank line = false) :
    ∃ before name rest, isBlank before = true ∧ IsName name ∧ line = before ++ name ++ rest ∧
      fields line = name :: fields rest := by
  obtain ⟨before, tail, rfl, hbefore, hfirst⟩ := exists_span isWhiteSpace line
  obtain ⟨name, rest, rfl, hname, hrest⟩ := exists_span (!isWhiteSpace ·) tail
  simp only [Bool.not_eq_true', Bool.not_eq_false'] at hname hrest
  have hblank : isBlank before = true := List.all_eq_true.2 hbefore
  have hne : name ≠ [] := by
    rintro rfl
    cases rest with
    | nil => simp [hblank] at h
    | cons c more =>
      have hspace := hrest c rfl
      rw [hfirst c rfl] at hspace
      cases hspace
  have hisName : IsName name := ⟨hne, hname⟩
  refine ⟨before, name, rest, hblank, hisName, (List.append_assoc _ _ _).symm, ?_⟩
  rw [fields_append_of_isBlank hblank]
  cases rest with
  | nil => rw [List.append_nil, fields_of_isName hisName]; rfl
  | cons c more =>
    have hc := hrest c rfl
    rw [fields_append_cons hc, fields_of_isName hisName, ← List.nil_append (c :: more),
      fields_append_cons hc]
    rfl

/-- Just the blank lines have no fields. -/
theorem fields_eq_nil_iff : fields line = [] ↔ isBlank line = true := by
  constructor
  · intro h
    by_contra hblank
    obtain ⟨_, _, _, _, _, _, hfields⟩ := exists_first_field (Bool.eq_false_iff.2 hblank)
    rw [h] at hfields
    cases hfields
  · exact fields_eq_nil_of_isBlank

/-- A line has a single field if white space alone stands around a name. -/
theorem fields_eq_singleton_iff :
    fields line = [name] ↔ ∃ before after, isBlank before = true ∧ isBlank after = true ∧
      IsName name ∧ line = before ++ name ++ after := by
  constructor
  · intro h
    have hblank : isBlank line = false := by
      rw [Bool.eq_false_iff, ne_eq, ← fields_eq_nil_iff, h]
      exact List.cons_ne_nil name []
    obtain ⟨before, first, rest, hbefore, hname, hline, hfields⟩ := exists_first_field hblank
    rw [h, List.cons.injEq] at hfields
    obtain ⟨rfl, hrest⟩ := hfields
    exact ⟨before, rest, hbefore, fields_eq_nil_iff.1 hrest.symm, hname, hline⟩
  · intro h
    obtain ⟨before, after, hbefore, hafter, hname, rfl⟩ := h
    rw [List.append_assoc, fields_append_of_isBlank hbefore]
    cases after with
    | nil => rw [List.append_nil, fields_of_isName hname]
    | cons c more =>
      rw [isBlank, List.all_cons, Bool.and_eq_true] at hafter
      rw [fields_append_cons hafter.1, fields_of_isName hname, fields_eq_nil_of_isBlank hafter.2,
        List.append_nil]

end Text

/-- The number of the line that a report is about. -/
def TextError.line? : TextError → Option Nat
  | noStart => none
  | notEmpty line => some line
  | wrongFields line _ _ => some line
  | badVertex line _ => some line
  | badSymbol line _ => some line
  | unwritableSymbol _ => none
  | unwritableLabel _ => none

namespace Document

open Automaton Contents

/-! ### The rules -/

/-- The parts of a document, in their order. -/
inductive Part where
  | start
  | separator
  | finishes
  | transitions
deriving DecidableEq, Repr

/-- The part of the line after a line of the given part. -/
def Part.next : Part → List Char → Part
  | start, _ => separator
  | separator, _ => finishes
  | finishes, [] => transitions
  | finishes, _ :: _ => finishes
  | transitions, _ => transitions

/-- Each line with the part that it stands in, where the first line stands in the given one. -/
def inParts : Part → List (List Char) → List (Part × List Char)
  | _, [] => []
  | part, line :: rest => (part, line) :: inParts (part.next line) rest

/-- The only field of the line is a numeral of the vertex. -/
def IsVertexLine (line : List Char) (q : Vertex) : Prop :=
  ∃ before name after, isBlank before = true ∧ isBlank after = true ∧ Numeral.IsNumeral name q ∧
    line = before ++ name ++ after

/-- Numerals of the ends and, unless the step is silent, the character make up the line, with single
spaces between them. -/
inductive IsTransitionLine : List Char → Transition Vertex → Prop where
  | silent {source target : List Char} {p q : Vertex} (hsource : Numeral.IsNumeral source p)
      (htarget : Numeral.IsNumeral target q) :
      IsTransitionLine (source ++ ' ' :: target) ⟨p, none, q⟩
  | character {source target : List Char} {p q : Vertex} (hsource : Numeral.IsNumeral source p)
      (htarget : Numeral.IsNumeral target q) (c : Char) :
      IsTransitionLine (source ++ ' ' :: target ++ [' ', c]) ⟨p, some c, q⟩

/-- What a line of the given part states. -/
inductive States : Part → List Char → Fact → Prop where
  | finish {line : List Char} {q : Vertex} (h : IsVertexLine line q) :
      States .finishes line (.finish q)
  | transition {line : List Char} {t : Transition Vertex} (h : IsTransitionLine line t) :
      States .transitions line (.transition t)

/-- Which lines may stand in the given part. -/
inductive Permits : Part → List Char → Prop where
  | start {line : List Char} {q : Vertex} (h : IsVertexLine line q) : Permits .start line
  | separator : Permits .separator []
  | endOfFinishes : Permits .finishes []
  | blank {line : List Char} (h : isBlank line = true) : Permits .transitions line
  | stated {part : Part} {line : List Char} {fact : Fact} (h : States part line fact) :
      Permits part line

/-- All lines of the text are permitted, and there is at least one. -/
structure IsReadable (text : List (List Char)) : Prop where
  ne_nil : text ≠ []
  permits : ∀ entry ∈ inParts .start text, Permits entry.1 entry.2

/-- The automaton has what the lines of the text state, and nothing else. -/
structure IsStatedBy (A : Automaton) (text : List (List Char)) : Prop where
  start : ∃ first, text.head? = some first ∧ IsVertexLine first A.start
  isFinish_iff : ∀ q, A.isFinish q = true ↔
    ∃ line, (.finishes, line) ∈ inParts .start text ∧ IsVertexLine line q
  mem_transitions_iff : ∀ t, t ∈ A.transitions ↔
    ∃ line, (.transitions, line) ∈ inParts .start text ∧ IsTransitionLine line t
  contains_iff : ∀ q, A.contains q = true ↔
    q = A.start ∨ A.isFinish q = true ∨ ∃ t ∈ A.transitions, q = t.source ∨ q = t.target

/-- The line with the number `n + 1` is the first that is not permitted. -/
structure IsFirstBad (entries : List (Part × List Char)) (n : Nat) : Prop where
  bad : ∃ entry, entries[n]? = some entry ∧ ¬Permits entry.1 entry.2
  earlier : ∀ entry ∈ entries.take n, Permits entry.1 entry.2

/-- What is reported about a text that is not readable. -/
inductive IsReport (text : List (List Char)) : TextError → Prop where
  /-- There is no first line, or it is blank. -/
  | noStart (h : ∀ first, text.head? = some first → isBlank first = true) : IsReport text .noStart
  /-- The first line is not blank. The report has the number of the first bad line. -/
  | line {first : List Char} {n : Nat} {e : TextError} (hfirst : text.head? = some first)
      (hblank : isBlank first = false) (hbad : IsFirstBad (inParts .start text) n)
      (hnumber : e.line? = some (n + 1)) : IsReport text e

variable {name line : List Char} {q : Vertex} {t : Transition Vertex} {f : Fact}

/-! ### Lines and their fields -/

/-- A numeral is a name. -/
theorem isName_of_isNumeral (h : Numeral.IsNumeral name q) : IsName name := by
  cases h with
  | plain h => exact ⟨h.ne_nil, fun c hc => isWhiteSpace_of_isDigit (h.isDigit c hc)⟩
  | signed h =>
    refine ⟨List.cons_ne_nil _ _, fun c hc => ?_⟩
    rcases List.mem_cons.1 hc with rfl | hc
    · rfl
    · exact isWhiteSpace_of_isDigit (h.isDigit c hc)

/-- A vertex line is a numeral, with white space around it. -/
theorem isVertexLine_iff : IsVertexLine line q ↔ ∃ name, fields line = [name] ∧
    Numeral.read name = some q := by
  simp only [fields_eq_singleton_iff, Numeral.read_eq_some_iff]
  constructor
  · intro h
    obtain ⟨before, name, after, hbefore, hafter, hname, hline⟩ := h
    exact ⟨name, ⟨before, after, hbefore, hafter, isName_of_isNumeral hname, hline⟩, hname⟩
  · intro h
    obtain ⟨name, ⟨before, after, hbefore, hafter, _, hline⟩, hname⟩ := h
    exact ⟨before, name, after, hbefore, hafter, hname, hline⟩

/-- A line with the numeral of a vertex is not blank. -/
theorem not_isBlank_of_isVertexLine (h : IsVertexLine line q) : isBlank line = false := by
  obtain ⟨name, hname, _⟩ := isVertexLine_iff.1 h
  rw [Bool.eq_false_iff, ne_eq, ← fields_eq_nil_iff, hname]
  exact List.cons_ne_nil name []

/-- A transition line is one that is written for names that describe the transition. -/
theorem isTransitionLine_iff : IsTransitionLine line t ↔
    ∃ named, transitionLine named = line ∧ Spaceless named ∧ Describes named t := by
  have hnamed {source target : List Char} {p q : Vertex} (s : Symbol)
      (hsource : Numeral.IsNumeral source p) (htarget : Numeral.IsNumeral target q) :
      Spaceless ⟨source, s, target⟩ ∧ Describes ⟨source, s, target⟩ ⟨p, s, q⟩ :=
    ⟨⟨(isName_of_isNumeral hsource).not_mem_space, (isName_of_isNumeral htarget).not_mem_space⟩,
      ⟨Numeral.read_eq_some_iff.2 hsource, rfl, Numeral.read_eq_some_iff.2 htarget⟩⟩
  constructor
  · intro h
    cases h with
    | silent hsource htarget =>
      exact ⟨_, transitionLine_of_eq_none rfl, hnamed none hsource htarget⟩
    | character hsource htarget c =>
      refine ⟨_, ?_, hnamed (some c) hsource htarget⟩
      simp [transitionLine]
  · intro h
    obtain ⟨⟨source, symbol, target⟩, rfl, _, hdescribes⟩ := h
    obtain ⟨p, s, q⟩ := t
    have hsource := Numeral.read_eq_some_iff.1 hdescribes.source
    have htarget := Numeral.read_eq_some_iff.1 hdescribes.target
    obtain rfl : symbol = s := hdescribes.symbol
    cases symbol with
    | none => simpa [transitionLine] using IsTransitionLine.silent hsource htarget
    | some c => simpa [transitionLine] using IsTransitionLine.character hsource htarget c

/-- A line without field states no finish. -/
theorem not_states_finishes_nil : ¬States .finishes [] f := by
  intro h
  cases h with
  | finish h =>
    have hblank := not_isBlank_of_isVertexLine h
    cases hblank

/-- A blank line states no transition. -/
theorem not_states_transitions_of_isBlank (hblank : isBlank line = true) :
    ¬States .transitions line f := by
  intro h
  cases h with
  | transition h =>
    have hnot : isBlank line = false := by
      cases h with
      | silent hsource _ => exact isBlank_append (isName_of_isNumeral hsource) _
      | character hsource _ _ =>
        rw [List.append_assoc]
        exact isBlank_append (isName_of_isNumeral hsource) _
    rw [hblank] at hnot
    cases hnot

end Document

end Recognizer
