import Recognizer.Proofs.Document.Rules
import Recognizer.Proofs.Naming.Sharing

/-!
# Documents with their lines rearranged

The finishes of a document may be listed in any order, and so may its transitions. A line may also be
repeated, as long as it stays in its section, and blank lines among the transitions may stand anywhere.
Each section is decoded line by line, so the contents agree afterwards, and contents that agree describe
the same automaton (`exists_ofLines?_agrees`).

Read by numerals, the automaton is the very same one. Read by labels, its vertices are numbered by the
lines that mention them first, so that their numbers can all be others. By names there is no difference
as long as there are numbers for all labels. Otherwise labels share vertices, and there is none exactly
if both automata state the same once every label is replaced by the name that it goes by
(`read_ofLines_of_rearranges`). Listing the numerals of all vertices as finishes takes one label too
many, and listing them the other way round makes a difference (`read_reversed_allNumerals`).

Texts are put together from lines that end with line feeds. Where a text has no carriage return and its
last line ends too, this gives back the text (`flatMap_lines`).
-/

namespace Recognizer

open Text

namespace Text

open Document

variable {written : List (List Char)} {text line : List Char} {c : Char}

/-- The text with the given lines, each with a line feed at its end. -/
def ofLines (written : List (List Char)) : String :=
  String.ofList (written.flatMap (· ++ ['\n']))

/-- A text whose lines hold no line break is read as these lines. -/
theorem lines_ofLines (h : ∀ line ∈ written, ∀ c ∈ line, isLineBreak c = false) :
    lines (ofLines written).toList = written := by
  rw [ofLines, String.toList_ofList, lines_flatMap]
  exact (List.flatMap_congr fun line hline => linesOf_eq_singleton (h line hline)).trans
    (List.flatMap_singleton' written)

/-- A character of a line is one of the text. -/
theorem mem_of_mem_splitOn {piece : List Char} (hpiece : piece ∈ text.splitOn '\n')
    (hc : c ∈ piece) : c ∈ text := by
  obtain ⟨i, hi⟩ := List.mem_iff_getElem?.1 hpiece
  have hplace : ((text.splitOn '\n').intersperse ['\n'])[2 * i]? = some piece := by
    rw [List.getElem?_intersperse_two_mul, hi]
  have hwhole : ['\n'].intercalate (text.splitOn '\n') = text := List.intercalate_splitOn '\n'
  rw [← hwhole]
  exact List.mem_flatten.2 ⟨piece, List.mem_of_getElem? hplace, hc⟩

/-- A line holds no characters but those of its text. -/
theorem mem_of_mem_lines (hline : line ∈ lines text) (hc : c ∈ line) : c ∈ text := by
  rw [lines, List.mem_append, List.mem_map] at hline
  rcases hline with ⟨piece, hpiece, rfl⟩ | hlast
  · have hmem : c ∈ piece := by
      rw [dropCarriageReturn] at hc
      split at hc
      · exact List.dropLast_subset _ hc
      · exact hc
    exact mem_of_mem_splitOn (List.dropLast_subset _ hpiece) hmem
  · rw [List.mem_filter, Option.mem_toList] at hlast
    exact mem_of_mem_splitOn (List.mem_of_getLast? hlast.1) hc

/-- The line breaks are the line feed and the carriage return. -/
theorem isLineBreak_eq_false_iff : isLineBreak c = false ↔ c ≠ '\n' ∧ c ≠ '\r' := by
  simp [isLineBreak]

/-- Without carriage return in the text, no line holds a line break. -/
theorem not_isLineBreak_of_mem_lines (hreturn : '\r' ∉ text) (hline : line ∈ lines text)
    (hc : c ∈ line) : isLineBreak c = false := by
  rw [isLineBreak_eq_false_iff]
  constructor
  · rintro rfl
    exact not_mem_lineFeed_of_mem_lines hline hc
  · rintro rfl
    exact hreturn (mem_of_mem_lines hline hc)

/-- A text without carriage return whose lines all end is that of its lines. -/
theorem flatMap_lines {text : List Char} (hreturn : '\r' ∉ text)
    (hend : ∀ c ∈ text.getLast?, c = '\n') : (lines text).flatMap (· ++ ['\n']) = text := by
  by_cases hfeed : '\n' ∈ text
  · obtain ⟨first, rest, rfl, hfirst⟩ := List.eq_append_cons_of_mem hfeed
    have hplain : ∀ c ∈ first, isLineBreak c = false := fun c hc =>
      isLineBreak_eq_false_iff.2 ⟨fun h => hfirst (h ▸ hc),
        fun h => hreturn (h ▸ List.mem_append_left _ hc)⟩
    have hrest : (lines rest).flatMap (· ++ ['\n']) = rest := by
      apply flatMap_lines
      · exact fun h => hreturn (List.mem_append_right _ (List.mem_cons_of_mem _ h))
      · intro c hc
        apply hend
        rw [List.getLast?_append, List.getLast?_cons, Option.mem_def.1 hc]
        rfl
    rw [lines_append_lineFeed, ← linesOf, linesOf_eq_singleton hplain, List.singleton_append,
      List.flatMap_cons, hrest, List.append_assoc, List.singleton_append]
  · cases hlast : text.getLast? with
    | none =>
      rw [List.getLast?_eq_none_iff.1 hlast]
      rfl
    | some c =>
      have hc := hend c hlast
      exact absurd (hc ▸ List.mem_of_getLast? hlast) hfeed
termination_by text.length

end Text

namespace Document

open Contents

variable {text other rest more : List (List Char)} {line start separator : List Char}
variable {finishes moreFinishes transitions moreTransitions : List (List Char)}

/-! ### Lines in their parts -/

/-- Without their parts, the lines are those of the text. -/
theorem map_snd_inParts (part : Part) (text : List (List Char)) :
    (inParts part text).map Prod.snd = text := by
  induction text generalizing part with
  | nil => rfl
  | cons line rest ih => rw [inParts, List.map_cons, ih]

/-- After the second empty line there are transitions only. -/
theorem inParts_transitions (text : List (List Char)) :
    inParts .transitions text = text.map (Prod.mk .transitions) := by
  induction text with
  | nil => rfl
  | cons line rest ih => rw [inParts, Part.next, ih, List.map_cons]

/-- Lines that are not empty do not end the finish section. -/
theorem inParts_finishes_append (hfinishes : ∀ line ∈ finishes, line ≠ [])
    (rest : List (List Char)) :
    inParts .finishes (finishes ++ rest) =
      finishes.map (Prod.mk .finishes) ++ inParts .finishes rest := by
  induction finishes with
  | nil => rfl
  | cons line others ih =>
    obtain ⟨hline, hothers⟩ := List.forall_mem_cons.1 hfinishes
    obtain ⟨c, cs, rfl⟩ := List.exists_cons_of_ne_nil hline
    rw [List.cons_append, inParts, Part.next, ih hothers, List.map_cons, List.cons_append]

/-- The finish section consists of the finish lines that are not empty. -/
theorem mem_finishSection_iff :
    line ∈ finishSection rest ↔ line ≠ [] ∧ (.finishes, line) ∈ inParts .finishes rest := by
  induction rest with
  | nil => simp [finishSection, inParts]
  | cons first rest ih =>
    cases first with
    | nil => simp [finishSection, inParts, Part.next, inParts_transitions]
    | cons c cs =>
      rw [finishSection, List.takeWhile_cons_of_pos rfl, ← finishSection, List.mem_cons, ih, inParts,
        Part.next, List.mem_cons, Prod.mk.injEq, and_or_left]
      refine or_congr_left ?_
      constructor
      · rintro rfl
        exact ⟨List.cons_ne_nil _ _, rfl, rfl⟩
      · exact fun h => h.2.2

/-- The transition section consists of the transition lines that are not blank. -/
theorem mem_transitionSection_iff :
    line ∈ transitionSection rest ↔
      isBlank line = false ∧ (.transitions, line) ∈ inParts .finishes rest := by
  induction rest with
  | nil => simp [transitionSection, inParts]
  | cons first rest ih =>
    cases first with
    | nil => simp [transitionSection, inParts, Part.next, inParts_transitions, and_comm]
    | cons c cs =>
      rw [transitionSection, List.dropWhile_cons_of_pos rfl, ← transitionSection, ih, inParts,
        Part.next, List.mem_cons]
      simp

/-! ### Rearranged lines -/

/-- The first two lines are the same, and after them the same lines stand in the same parts, in
whatever order and however often. -/
structure Rearranges (other text : List (List Char)) : Prop where
  opening : other.take 2 = text.take 2
  mem_iff : ∀ entry, entry ∈ inParts .finishes (other.drop 2) ↔
    entry ∈ inParts .finishes (text.drop 2)

/-- No line is lost or brought in. -/
theorem Rearranges.mem_lines_iff (h : Rearranges other text) : line ∈ other ↔ line ∈ text := by
  have hrest : line ∈ other.drop 2 ↔ line ∈ text.drop 2 := by
    rw [← map_snd_inParts .finishes (other.drop 2), ← map_snd_inParts .finishes (text.drop 2),
      List.mem_map, List.mem_map]
    simp only [h.mem_iff]
  rw [← List.take_append_drop 2 other, ← List.take_append_drop 2 text, List.mem_append,
    List.mem_append, h.opening, hrest]

/-- The finishes may be permuted and repeated, whatever comes after them. -/
theorem rearranges_append (hne : ∀ line ∈ finishes, line ≠ [])
    (hfinishes : ∀ line, line ∈ moreFinishes ↔ line ∈ finishes)
    (hrest : ∀ entry, entry ∈ inParts .finishes more ↔ entry ∈ inParts .finishes rest) :
    Rearranges (start :: separator :: (moreFinishes ++ more))
      (start :: separator :: (finishes ++ rest)) := by
  have hmore : ∀ line ∈ moreFinishes, line ≠ [] :=
    fun line hline => hne line ((hfinishes line).1 hline)
  refine ⟨rfl, fun entry => ?_⟩
  change entry ∈ inParts .finishes (moreFinishes ++ more) ↔
    entry ∈ inParts .finishes (finishes ++ rest)
  rw [inParts_finishes_append hne, inParts_finishes_append hmore, List.mem_append, List.mem_append,
    hrest]
  simp only [List.mem_map, hfinishes]

/-- The lines of both sections may be permuted and repeated. -/
theorem rearranges_of_sections (hne : ∀ line ∈ finishes, line ≠ [])
    (hfinishes : ∀ line, line ∈ moreFinishes ↔ line ∈ finishes)
    (htransitions : ∀ line, line ∈ moreTransitions ↔ line ∈ transitions) :
    Rearranges (start :: separator :: (moreFinishes ++ [] :: moreTransitions))
      (start :: separator :: (finishes ++ [] :: transitions)) := by
  refine rearranges_append hne hfinishes fun entry => ?_
  rw [inParts, inParts, Part.next, inParts_transitions, inParts_transitions]
  simp only [List.mem_cons, List.mem_map, htransitions]

/-- Rearranged sections state the same. -/
theorem exists_statementsOf?_eq_some {statements : List Statement}
    (hsame : ∀ entry, entry ∈ inParts .finishes more ↔ entry ∈ inParts .finishes rest)
    (h : statementsOf? (separator :: rest) = some statements) :
    ∃ restated, statementsOf? (separator :: more) = some restated ∧
      ∀ statement, statement ∈ restated ↔ statement ∈ statements := by
  rw [statementsOf?] at h
  split at h
  · next hempty =>
    simp only [bind, Option.bind_eq_some_iff, pure, Option.some.injEq] at h
    obtain ⟨finishes, hfinishes, transitions, htransitions, rfl⟩ := h
    have hfinishDocument : ∀ line, line ∈ finishSection more ↔ line ∈ finishSection rest :=
      fun line => by rw [mem_finishSection_iff, mem_finishSection_iff, hsame]
    have htransitionLines : ∀ line, line ∈ transitionSection more ↔ line ∈ transitionSection rest :=
      fun line => by rw [mem_transitionSection_iff, mem_transitionSection_iff, hsame]
    obtain ⟨fs, hfs, hmemFinishes⟩ := exists_mapM_of_mem_iff hfinishDocument hfinishes
    obtain ⟨ts, hts, hmemTransitions⟩ := exists_mapM_of_mem_iff htransitionLines htransitions
    refine ⟨fs ++ ts, ?_, fun statement => ?_⟩
    · rw [statementsOf?, if_pos hempty, hfs, hts]
      rfl
    · rw [List.mem_append, List.mem_append, hmemFinishes, hmemTransitions]
  · cases h

/-- A rearranged document has contents that agree. -/
theorem exists_ofLines?_agrees {contents : Contents} (h : Rearranges other text)
    (hcontents : Contents.ofLines? text = some contents) :
    ∃ restated, Contents.ofLines? other = some restated ∧ restated.Agrees contents := by
  obtain ⟨hopening, hsame⟩ := h
  have hother := List.take_append_drop 2 other
  rw [hopening] at hother
  rcases text with _ | ⟨start, _ | ⟨separator, rest⟩⟩
  · cases hcontents
  · have hlength : other.length ≤ 2 := by
      have htaken := congrArg List.length hopening
      rw [List.length_take] at htaken
      change _ = 1 at htaken
      omega
    rw [List.drop_eq_nil_of_le hlength] at hother
    subst hother
    exact ⟨contents, hcontents, .refl contents⟩
  · rw [← hother]
    rw [Contents.ofLines?] at hcontents
    split at hcontents
    · next name hname =>
      obtain ⟨statements, hstatements, rfl⟩ := Option.map_eq_some_iff.1 hcontents
      obtain ⟨restated, hrestated, hmem⟩ := exists_statementsOf?_eq_some hsame hstatements
      refine ⟨⟨name, restated⟩, ?_, rfl, hmem⟩
      rw [List.take_succ_cons, List.cons_append, Contents.ofLines?, hname]
      exact congrArg (Option.map _) hrestated
    · cases hcontents

end Document

/-! ### Both readers -/

section Readers

variable {text other : String} (h : Document.Rearranges (lines other.toList) (lines text.toList))
include h

/-- By numerals, a rearranged document is read to the same automaton. -/
theorem Automaton.read_of_rearranges {A : Automaton} (hread : read text = .ok A) :
    read other = .ok A := by
  rw [← toOption_eq_some_iff, toOption_read] at hread ⊢
  obtain ⟨contents, hcontents, hfacts⟩ := Option.bind_eq_some_iff.1 hread
  obtain ⟨⟨start, facts⟩, hresolve, rfl⟩ := Option.map_eq_some_iff.1 hfacts
  obtain ⟨restated, hrestated, hagrees⟩ := Document.exists_ofLines?_agrees h hcontents
  obtain ⟨more, hmore, hsame⟩ := hagrees.exists_resolve?_eq hresolve
  rw [hrestated, Option.bind_some, hmore]
  exact congrArg some hsame

/-- By labels, a rearranged document is read to an automaton with the same labels. It is the same by
names as long as identifiers last for the labels, and else exactly if the document states the same
after either replacement. -/
theorem NamedAutomaton.exists_read_of_rearranges {L : NamedAutomaton} (hread : read text = .ok L) :
    ∃ M contents, read other = .ok M ∧ Contents.ofLines? (lines text.toList) = some contents ∧
      (∀ label, label ∈ M.labels.labels ↔ label ∈ L.labels.labels) ∧
      (L.Fits → (M == L) = true) ∧ L.NamesByRemainder ∧ M.NamesByRemainder ∧
      ((M == L) = true ↔ (contents.rename M.nameFor).Agrees (contents.rename L.nameFor)) := by
  obtain ⟨contents, hcontents, rfl⟩ := exists_contents_of_read hread
  obtain ⟨restated, hrestated, hagrees⟩ := Document.exists_ofLines?_agrees h hcontents
  refine ⟨ofContents restated, contents, ?_, hcontents, fun label => ?_, fun hfits => ?_,
    namesByRemainder_ofContents _, namesByRemainder_ofContents _, ?_⟩
  · rw [← toOption_eq_some_iff, toOption_read, hrestated, Option.map_some]
  · rw [mem_labels_ofContents, mem_labels_ofContents, hagrees.mem_labels_iff]
  · have hdescribed := isDescribedBy_ofContents hfits
    have hrestatedFits := (hdescribed.of_agrees hagrees.symm).fits_ofContents
    exact ((isDescribedBy_ofContents hrestatedFits).of_agrees hagrees).beq hdescribed
  · have hrenamed := hagrees.rename (ofContents restated).nameFor
    rw [beq_ofContents_iff]
    exact ⟨hrenamed.symm.trans, hrenamed.trans⟩

end Readers

/-- Where the lines of both sections of a text are permuted and repeated, both readers take it as they
take the text itself. By numerals the automaton is the same, and by labels it is the same by names, as
long as there are numbers for all labels. Beyond that a label goes by the name of the label at the
remainder of its place, and the automaton is the same exactly if this makes no difference to what the
document states. -/
theorem read_ofLines_of_rearranges (text : String) (hreturn : '\r' ∉ text.toList)
    (written : List (List Char)) (h : Document.Rearranges written (lines text.toList)) :
    ((∀ c ∈ text.toList.getLast?, c = '\n') → ofLines (lines text.toList) = text) ∧
      (∀ A, Automaton.read text = .ok A → Automaton.read (ofLines written) = .ok A) ∧
      ∀ L, NamedAutomaton.read text = .ok L →
        ∃ M contents, NamedAutomaton.read (ofLines written) = .ok M ∧
          Contents.ofLines? (lines text.toList) = some contents ∧
          (∀ label, label ∈ M.labels.labels ↔ label ∈ L.labels.labels) ∧
          (L.Fits → (M == L) = true) ∧ L.NamesByRemainder ∧ M.NamesByRemainder ∧
          ((M == L) = true ↔
            (contents.rename M.nameFor).Agrees (contents.rename L.nameFor)) := by
  have hlines : lines (ofLines written).toList = written :=
    lines_ofLines fun line hline c hc =>
      not_isLineBreak_of_mem_lines hreturn (h.mem_lines_iff.1 hline) hc
  rw [← hlines] at h
  refine ⟨fun hend => ?_, fun A => Automaton.read_of_rearranges h,
    fun L => NamedAutomaton.exists_read_of_rearranges h⟩
  rw [ofLines, flatMap_lines hreturn hend, String.ofList_toList]

/-- With the finishes the other way round and a transition repeated, the labels have other numbers. -/
theorem read_ofLines_of_rearranges_twoFinishes :
    ∃ A L M, Automaton.read "2\n\n1\n0\n\n2 0 a\n\t\n0 1\n" = .ok A ∧
      Automaton.read "2\n\n0\n1\n\n0 1\n2 0 a\n0 1\n\t\n" = .ok A ∧
      NamedAutomaton.read "2\n\n1\n0\n\n2 0 a\n\t\n0 1\n" = .ok L ∧
      NamedAutomaton.read "2\n\n0\n1\n\n0 1\n2 0 a\n0 1\n\t\n" = .ok M ∧
      (M == L) = true ∧ L.labels.labels = ["2", "1", "0"] ∧ M.labels.labels = ["2", "0", "1"] := by
  have hrearranged : Document.Rearranges
      (['2'] :: [] :: ([['0'], ['1']] ++ [] :: ["0 1".toList, "2 0 a".toList, "0 1".toList, ['\t']]))
      (lines "2\n\n1\n0\n\n2 0 a\n\t\n0 1\n".toList) := by
    have hlines : lines "2\n\n1\n0\n\n2 0 a\n\t\n0 1\n".toList =
        ['2'] :: [] :: ([['1'], ['0']] ++ [] :: ["2 0 a".toList, ['\t'], "0 1".toList]) := rfl
    rw [hlines]
    apply Document.rearranges_of_sections
    · simp
    · simp [or_comm]
    · simp [or_comm]
  obtain ⟨_, hnumerals, hlabels⟩ := read_ofLines_of_rearranges _ (by decide) _ hrearranged
  have hnumbers : Automaton.read "2\n\n1\n0\n\n2 0 a\n\t\n0 1\n" = .ok _ := rfl
  have hread : NamedAutomaton.read "2\n\n1\n0\n\n2 0 a\n\t\n0 1\n" = .ok _ := rfl
  have hother : NamedAutomaton.read "2\n\n0\n1\n\n0 1\n2 0 a\n0 1\n\t\n" = .ok _ := rfl
  obtain ⟨M, _, hM, _, _, hequal, _⟩ := hlabels _ hread
  cases hother.symm.trans hM
  exact ⟨_, _, _, hnumbers, hnumerals _ hnumbers, hread, hother,
    hequal (by unfold NamedAutomaton.Fits; decide +kernel), by decide +kernel, by decide +kernel⟩

/-! ### One label too many -/

section FinishesOnly

open Document

variable {start : List Char} {finishes : List (List Char)}

/-- The lines of a document that has finishes only. -/
def finishDocument (start : List Char) (finishes : List (List Char)) : List (List Char) :=
  start :: [] :: (finishes ++ [[]])

variable (hstart : IsName start) (hfinishes : ∀ name ∈ finishes, IsName name)
include hstart hfinishes

/-- No line of names is broken. -/
theorem not_isLineBreak_of_mem_finishDocument :
    ∀ line ∈ finishDocument start finishes, ∀ c ∈ line, isLineBreak c = false := by
  intro line hline c hc
  simp only [finishDocument, List.mem_cons, List.mem_append, List.not_mem_nil, or_false] at hline
  rcases hline with rfl | rfl | hline | rfl
  · exact hstart.not_isLineBreak hc
  · exact absurd hc List.not_mem_nil
  · exact (hfinishes line hline).not_isLineBreak hc
  · exact absurd hc List.not_mem_nil

/-- The document is read to what its finishes state. -/
theorem NamedAutomaton.read_finishDocument :
    read (ofLines (finishDocument start finishes)) = .ok (ofContents (finishesOnly start finishes)) := by
  have htext : (ofLines (finishDocument start finishes)).toList = layout start finishes [] :=
    String.toList_ofList
  have hcontents : Contents.ofLines? (lines (layout start finishes [])) =
      some ⟨start, finishes.map Statement.finish ++ []⟩ :=
    ofLines?_layout hstart hfinishes (by simp) (by simp)
  rw [← toOption_eq_some_iff, toOption_read, htext, hcontents, List.append_nil]
  rfl

/-- The finishes may be listed the other way round. -/
theorem rearranges_reverse :
    Rearranges (finishDocument start finishes.reverse)
      (lines (ofLines (finishDocument start finishes)).toList) := by
  rw [lines_ofLines (not_isLineBreak_of_mem_finishDocument hstart hfinishes)]
  exact rearranges_of_sections (fun name hname => (hfinishes name hname).ne_nil)
    (fun _ => List.mem_reverse) fun _ => Iff.rfl

end FinishesOnly

/-- The numerals of all vertices. -/
def allNumerals : List (List Char) :=
  (List.range UInt32.size).map fun i => Numeral.write (UInt32.ofNat i)

/-- There is a numeral for every identifier. -/
theorem length_allNumerals : allNumerals.length = UInt32.size := by
  rw [allNumerals, List.length_map, List.length_range]

/-- No numeral comes twice. -/
theorem nodup_allNumerals : allNumerals.Nodup := by
  refine List.nodup_range.map_on fun i hi j hj h => ?_
  rw [Numeral.write_inj, ← UInt32.toNat_inj, UInt32.toNat_ofNat_of_lt' (List.mem_range.1 hi),
    UInt32.toNat_ofNat_of_lt' (List.mem_range.1 hj)] at h
  exact h

/-- Numerals are names. -/
theorem isName_of_mem_allNumerals : ∀ name ∈ allNumerals, Document.IsName name := by
  intro name hname
  obtain ⟨i, _, rfl⟩ := List.mem_map.1 hname
  exact isName_write _

/-- A letter is no numeral. -/
theorem not_mem_allNumerals : ['s'] ∉ allNumerals := by
  intro hmem
  obtain ⟨i, _, hname⟩ := List.mem_map.1 hmem
  have hdigit := (Numeral.isDecimal_write (UInt32.ofNat i)).isDigit 's' (hname ▸ List.mem_cons_self)
  exact absurd hdigit (by decide)

/-- With the start `s` and the numerals of all vertices as finishes, a document has one label more than
there are identifiers. With its finishes the other way round it is accepted too, but is read to an
automaton that is not the same by names. -/
theorem read_reversed_allNumerals :
    '\r' ∉ (ofLines (finishDocument ['s'] allNumerals)).toList ∧
      (ofLines (finishDocument ['s'] allNumerals)).toList.getLast? = some '\n' ∧
      Document.Rearranges (finishDocument ['s'] allNumerals.reverse)
        (lines (ofLines (finishDocument ['s'] allNumerals)).toList) ∧
      ∃ L M, NamedAutomaton.read (ofLines (finishDocument ['s'] allNumerals)) = .ok L ∧
        NamedAutomaton.read (ofLines (finishDocument ['s'] allNumerals.reverse)) = .ok M ∧
        (M == L) = false := by
  have hstart : Document.IsName ['s'] := by
    refine ⟨List.cons_ne_nil _ _, fun c hc => ?_⟩
    rw [List.mem_singleton.1 hc]
    rfl
  have hreversed : ∀ name ∈ allNumerals.reverse, Document.IsName name :=
    fun name hname => isName_of_mem_allNumerals name (List.mem_reverse.1 hname)
  have hplain := not_isLineBreak_of_mem_finishDocument hstart isName_of_mem_allNumerals
  refine ⟨?_, ?_, rearranges_reverse hstart isName_of_mem_allNumerals, _, _,
    NamedAutomaton.read_finishDocument hstart isName_of_mem_allNumerals,
    NamedAutomaton.read_finishDocument hstart hreversed,
    NamedAutomaton.not_beq_ofContents_reverse
      (List.nodup_cons.2 ⟨not_mem_allNumerals, nodup_allNumerals⟩) length_allNumerals⟩
  · rw [ofLines, String.toList_ofList]
    intro hmem
    obtain ⟨line, hline, hc⟩ := List.mem_flatMap.1 hmem
    rcases List.mem_append.1 hc with hc | hc
    · exact absurd (hplain line hline '\r' hc) (by decide)
    · exact absurd hc (by decide)
  · rw [ofLines, String.toList_ofList, finishDocument, ← List.cons_append, ← List.cons_append,
      List.flatMap_append, List.flatMap_singleton, List.nil_append, List.getLast?_concat]

end Recognizer
