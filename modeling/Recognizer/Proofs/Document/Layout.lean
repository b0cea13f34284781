import Mathlib.Data.List.Basic
import Mathlib.Data.List.TakeWhile
import Recognizer.Document.Writer
import Recognizer.Proofs.Document.Contents

/-!
# The contents of a written document

A name is a text without white space that is not empty. Where all names are names in this sense, a
written document has exactly the contents that it was written from (`ofLines?_layout`), provided
that no symbol breaks its line.

The proviso is exact. A line break as symbol leaves a line that ends with the space before the
symbol, and such a line states nothing (`ofLines?_layout_eq_none`).
-/

namespace Recognizer

open Text

namespace Document

open Contents

/-- What can stand on a line as the name of a vertex. -/
structure IsName (name : List Char) : Prop where
  ne_nil : name ≠ []
  not_isWhiteSpace : ∀ c ∈ name, isWhiteSpace c = false

variable {line name start : List Char} {finishes : List (List Char)} {t : Transition (List Char)}
variable {transitions : List (Transition (List Char))} {c : Char}

/-! ### Names on a line -/

/-- Line breaks are white space. -/
theorem isWhiteSpace_of_isLineBreak (h : isLineBreak c = true) : isWhiteSpace c = true := by
  simp only [isLineBreak, Bool.or_eq_true, beq_iff_eq] at h
  rcases h with rfl | rfl <;> rfl

/-- No line break is part of a name. -/
theorem IsName.not_isLineBreak (h : IsName name) (hc : c ∈ name) : isLineBreak c = false := by
  rw [Bool.eq_false_iff]
  intro hbreak
  have hspace := h.not_isWhiteSpace c hc
  rw [isWhiteSpace_of_isLineBreak hbreak] at hspace
  cases hspace

/-- No space is part of a name. -/
theorem IsName.not_mem_space (h : IsName name) : ' ' ∉ name := by
  intro hspace
  exact absurd (h.not_isWhiteSpace ' ' hspace) (by decide)

/-- A line with a name does not end the section. -/
theorem IsName.not_isEmpty (h : IsName name) : (!name.isEmpty) = true := by
  simp [h.ne_nil]

/-- A name is the only field of its line. -/
theorem fields_of_isName (h : IsName name) : fields name = [name] := by
  rw [fields, List.splitOnP_eq_singleton h.not_isWhiteSpace]
  simp [h.ne_nil]

/-- A name on its line states a finish. -/
theorem finishOf?_of_isName (h : IsName name) : finishOf? name = some (.finish name) := by
  rw [finishOf?, fields_of_isName h]

/-- A text without space is passed over in the search for one. -/
theorem bne_space_of_mem (h : ' ' ∉ name) : ∀ c ∈ name, (c != ' ') = true := by
  intro c hc
  rw [bne_iff_ne]
  exact fun hspace => h (hspace ▸ hc)

/-- A text without space is cut off by the first space after it. -/
theorem cutAtSpace_append (h : ' ' ∉ name) (rest : List Char) :
    cutAtSpace (name ++ ' ' :: rest) = (name, some rest) := by
  have hname := bne_space_of_mem h
  rw [cutAtSpace, List.takeWhile_append_of_pos hname, List.dropWhile_append_of_pos hname]
  simp

/-- A text without space is not cut. -/
theorem cutAtSpace_eq_self (h : ' ' ∉ name) : cutAtSpace name = (name, none) := by
  have hname := bne_space_of_mem h
  rw [cutAtSpace, List.takeWhile_eq_self_iff.2 hname, List.dropWhile_eq_nil_iff.2 hname]
  rfl

/-! ### The lines of transitions -/

/-- What is left of the line of a transition when its symbol is taken away, but not the space before
it. -/
def openLine (t : Transition (List Char)) : List Char :=
  t.source ++ ' ' :: (t.target ++ [' '])

/-- The line of a silent step ends with the target. -/
theorem transitionLine_of_eq_none (h : t.symbol = none) :
    transitionLine t = t.source ++ ' ' :: t.target := by
  simp [transitionLine, h]

/-- The line of a step on a character ends with the character. -/
theorem transitionLine_of_mem (h : c ∈ t.symbol) : transitionLine t = openLine t ++ [c] := by
  rw [Option.mem_def] at h
  simp [transitionLine, openLine, h]

/-- The line of a transition states the transition, whatever else than spaces its names hold. -/
theorem transitionOf?_transitionLine (hsource : ' ' ∉ t.source) (htarget : ' ' ∉ t.target) :
    transitionOf? (transitionLine t) = some (.transition t) := by
  cases hsymbol : t.symbol with
  | none =>
    rw [transitionLine_of_eq_none hsymbol, transitionOf?, cutAtSpace_append hsource]
    dsimp only
    rw [cutAtSpace_eq_self htarget, ← hsymbol]
  | some c =>
    rw [transitionLine_of_mem hsymbol, openLine, List.append_assoc, List.cons_append,
      List.append_assoc, transitionOf?, cutAtSpace_append hsource]
    dsimp only
    rw [List.singleton_append, cutAtSpace_append htarget]
    dsimp only
    rw [← hsymbol]

/-- A line without symbol after the second space states nothing. -/
theorem transitionOf?_openLine (hsource : IsName t.source) (htarget : IsName t.target) :
    transitionOf? (openLine t) = none := by
  rw [transitionOf?, openLine, cutAtSpace_append hsource.not_mem_space]
  dsimp only
  rw [cutAtSpace_append htarget.not_mem_space]

/-- A line that begins with a name is not blank. -/
theorem isBlank_append (h : IsName name) (rest : List Char) : isBlank (name ++ rest) = false := by
  obtain ⟨c, hc⟩ := List.exists_mem_of_ne_nil name h.ne_nil
  rw [Bool.eq_false_iff]
  intro hblank
  have hspace := List.all_eq_true.1 hblank c (List.mem_append_left rest hc)
  rw [h.not_isWhiteSpace c hc] at hspace
  cases hspace

/-! ### The lines of a layout -/

/-- The lines that a line is read as: more than one if it holds a line feed. -/
def linesOf (line : List Char) : List (List Char) :=
  (line.splitOn '\n').map dropCarriageReturn

/-- A line without line break is read as it is. -/
theorem linesOf_eq_singleton (h : ∀ c ∈ line, isLineBreak c = false) : linesOf line = [line] := by
  have hfeed : '\n' ∉ line := fun hmem => absurd (h '\n' hmem) (by decide)
  have hreturn : line.getLast? ≠ some '\r' := fun hlast =>
    absurd (h '\r' (List.mem_of_getLast? hlast)) (by decide)
  rw [linesOf, List.splitOn_eq_singleton hfeed, List.map_singleton, dropCarriageReturn,
    if_neg hreturn]

/-- A name is read as one line. -/
theorem linesOf_of_isName (h : IsName name) : linesOf name = [name] :=
  linesOf_eq_singleton fun _ => h.not_isLineBreak

/-- Without its symbol, the line of a transition holds no line break. -/
theorem not_isLineBreak_openLine (hsource : IsName t.source) (htarget : IsName t.target) :
    ∀ c ∈ openLine t, isLineBreak c = false := by
  intro c hc
  have hspace : isLineBreak ' ' = false := rfl
  simp only [openLine, List.mem_append, List.mem_cons, List.not_mem_nil, or_false] at hc
  rcases hc with hc | rfl | hc | rfl
  · exact hsource.not_isLineBreak hc
  · exact hspace
  · exact htarget.not_isLineBreak hc
  · exact hspace

/-- The line of a transition is read as it is, unless its symbol breaks it. -/
theorem linesOf_transitionLine (hsource : IsName t.source) (htarget : IsName t.target)
    (hsymbol : ∀ c ∈ t.symbol, isLineBreak c = false) :
    linesOf (transitionLine t) = [transitionLine t] := by
  have hopen := not_isLineBreak_openLine hsource htarget
  apply linesOf_eq_singleton
  intro c hc
  cases hs : t.symbol with
  | none =>
    rw [transitionLine_of_eq_none hs] at hc
    apply hopen
    rw [openLine, ← List.cons_append, ← List.append_assoc]
    exact List.mem_append_left _ hc
  | some d =>
    rw [transitionLine_of_mem hs] at hc
    rcases List.mem_append.1 hc with hc | hc
    · exact hopen c hc
    · rw [List.mem_singleton.1 hc]
      exact hsymbol d hs

/-- A line break as symbol leaves an open line. -/
theorem openLine_mem_linesOf (hsource : IsName t.source) (htarget : IsName t.target)
    (hc : c ∈ t.symbol) (hbreak : isLineBreak c = true) :
    openLine t ∈ linesOf (transitionLine t) := by
  have hopen := not_isLineBreak_openLine hsource htarget
  simp only [isLineBreak, Bool.or_eq_true, beq_iff_eq] at hbreak
  rw [transitionLine_of_mem hc, linesOf]
  rcases hbreak with rfl | rfl
  · rw [List.splitOn_append_cons_self, List.map_append]
    apply List.mem_append_left
    rw [← linesOf, linesOf_eq_singleton hopen]
    exact List.mem_cons_self
  · have hfeed : '\n' ∉ openLine t ++ ['\r'] := by
      intro hmem
      rcases List.mem_append.1 hmem with hmem | hmem
      · exact absurd (hopen _ hmem) (by decide)
      · exact absurd hmem (by decide)
    rw [List.splitOn_eq_singleton hfeed, List.map_singleton, dropCarriageReturn,
      List.getLast?_concat, if_pos rfl, List.dropLast_concat]
    exact List.mem_cons_self

/-! ### The contents of a layout -/

section Layout

variable (hstart : IsName start) (hfinishes : ∀ name ∈ finishes, IsName name)
variable (htransitions : ∀ t ∈ transitions, IsName t.source ∧ IsName t.target)

include hstart hfinishes in
/-- The lines of a layout are its sections, with an empty line before each. -/
theorem lines_layout :
    lines (layout start finishes transitions) =
      start :: [] :: (finishes ++ [] :: transitions.flatMap fun t => linesOf (transitionLine t)) := by
  have hnames : finishes.flatMap linesOf = finishes := by
    rw [List.flatMap_congr fun name hname => linesOf_of_isName (hfinishes name hname),
      List.flatMap_singleton']
  have hempty : linesOf [] = [[]] := rfl
  rw [layout, lines_flatMap]
  change List.flatMap linesOf _ = _
  simp only [List.cons_append, List.flatMap_cons, List.flatMap_append, List.flatMap_map, hnames,
    linesOf_of_isName hstart, hempty, List.nil_append]

include hfinishes in
/-- The finishes of a layout are found before the second empty line. -/
theorem finishSection_append (rest : List (List Char)) :
    finishSection (finishes ++ [] :: rest) = finishes := by
  have hne : ∀ name ∈ finishes, (!name.isEmpty) = true :=
    fun name hname => (hfinishes name hname).not_isEmpty
  rw [finishSection, List.takeWhile_append_of_pos hne]
  simp

include hfinishes in
/-- The transitions of a layout are found after the second empty line. -/
theorem transitionSection_append (rest : List (List Char)) :
    transitionSection (finishes ++ [] :: rest) = rest.filter (!isBlank ·) := by
  have hne : ∀ name ∈ finishes, (!name.isEmpty) = true :=
    fun name hname => (hfinishes name hname).not_isEmpty
  rw [transitionSection, List.dropWhile_append_of_pos hne]
  simp

include hstart hfinishes in
/-- After its names a layout states what the lines of its transitions state. -/
theorem ofLines?_lines_layout :
    ofLines? (lines (layout start finishes transitions)) =
      (((transitions.flatMap fun t => linesOf (transitionLine t)).filter (!isBlank ·)).mapM
        transitionOf?).map fun stated => ⟨start, finishes.map Statement.finish ++ stated⟩ := by
  have hfinish : finishes.mapM finishOf? = some (finishes.map Statement.finish) :=
    mapM_eq_some_map fun name hname => finishOf?_of_isName (hfinishes name hname)
  rw [lines_layout hstart hfinishes, ofLines?, fields_of_isName hstart]
  dsimp only
  rw [statementsOf?, if_pos List.isEmpty_nil, finishSection_append hfinishes,
    transitionSection_append hfinishes, hfinish]
  cases List.mapM transitionOf? _ <;> rfl

include hstart hfinishes htransitions in
/-- A layout has the contents that it was written from, unless a symbol breaks its line. -/
theorem ofLines?_layout (hsymbols : ∀ t ∈ transitions, ∀ c ∈ t.symbol, isLineBreak c = false) :
    ofLines? (lines (layout start finishes transitions)) =
      some ⟨start, finishes.map Statement.finish ++ transitions.map Statement.transition⟩ := by
  have hlines : (transitions.flatMap fun t => linesOf (transitionLine t)) =
      transitions.map transitionLine := by
    rw [← List.flatMap_singleton' (transitions.map transitionLine), List.flatMap_map]
    apply List.flatMap_congr
    intro t ht
    exact linesOf_transitionLine (htransitions t ht).1 (htransitions t ht).2 (hsymbols t ht)
  have hfilter : (transitions.map transitionLine).filter (!isBlank ·) =
      transitions.map transitionLine := by
    rw [List.filter_eq_self, List.forall_mem_map]
    intro t ht
    rw [transitionLine, List.append_assoc, isBlank_append (htransitions t ht).1]
    rfl
  have hstated : (transitions.map transitionLine).mapM transitionOf? =
      some (transitions.map Statement.transition) := by
    rw [List.mapM_map]
    apply mapM_eq_some_map
    intro t ht
    obtain ⟨hsource, htarget⟩ := htransitions t ht
    exact transitionOf?_transitionLine hsource.not_mem_space htarget.not_mem_space
  rw [ofLines?_lines_layout hstart hfinishes, hlines, hfilter, hstated]
  rfl

include hstart hfinishes htransitions in
/-- A layout with a symbol that breaks its line has no contents. -/
theorem ofLines?_layout_eq_none (ht : t ∈ transitions) (hc : c ∈ t.symbol)
    (hbreak : isLineBreak c = true) :
    ofLines? (lines (layout start finishes transitions)) = none := by
  obtain ⟨hsource, htarget⟩ := htransitions t ht
  have hopen : openLine t ∈
      (transitions.flatMap fun t => linesOf (transitionLine t)).filter (!isBlank ·) := by
    refine List.mem_filter.2 ⟨List.mem_flatMap.2 ⟨t, ht, ?_⟩, ?_⟩
    · exact openLine_mem_linesOf hsource htarget hc hbreak
    · rw [openLine, isBlank_append hsource]
      rfl
  rw [ofLines?_lines_layout hstart hfinishes,
    mapM_eq_none hopen (transitionOf?_openLine hsource htarget)]
  rfl

end Layout

end Document

end Recognizer
