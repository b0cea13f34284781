import Recognizer.Expression.Reader

/-!
# The written form of expressions is unambiguous

Reading gives back the expression that was written, in whatever place it stands
(`read?_printOperand`). So different expressions never look the same: the parentheses that are left
out, the grouping of chains to the left and the escapes lose nothing (`toString_eq_iff`).

The written form is the marks of the expression one after the other, and a text shows where each
mark ends. What the marks do to the open groups depends on how tightly the expression binds: those
of an atom or a star add a factor to any group, those of a concatenation need a group without
factors since the last bar, and those of an alternation need a group of their own (`ReadAs`).
Parentheses make a group of their own and add it as a factor, so they fit every place. The induction
is on the expression, with the open groups arbitrary.
-/

namespace Recognizer

namespace Mark

variable {c : Char} {rest : List Char} {m : Mark} {marks : List Mark}

/-! ### A text shows its marks -/

/-- Without a backslash, a character is a mark of its own. -/
theorem ofText_cons (h : c ≠ '\\') : ofText (c :: rest) = ofChar c :: ofText rest := by
  rw [ofText]
  intro d rest' hc
  exact absurd hc h

/-- A character that is written as it is stands for itself. -/
theorem ofChar_eq_symbol (h : Expression.printChar c = [c]) : ofChar c = symbol (some c) := by
  unfold ofChar
  split
  case h_6 => rfl
  all_goals exact absurd h (by decide)

/-- The written form of a character is read as that character. -/
theorem ofText_printChar :
    ofText (Expression.printChar c ++ rest) = symbol (some c) :: ofText rest := by
  by_cases hplain : Expression.printChar c = [c]
  · have hne : c ≠ '\\' := by
      intro hbackslash
      subst hbackslash
      exact absurd hplain (by decide)
    rw [hplain, List.singleton_append, ofText_cons hne, ofChar_eq_symbol hplain]
  · revert hplain
    unfold Expression.printChar
    split
    case h_10 => exact fun hplain => absurd rfl hplain
    all_goals exact fun _ => rfl

/-- The first mark of a text is the one that was written first. -/
theorem ofText_write : ofText (m.write ++ rest) = m :: ofText rest := by
  cases m with
  | symbol s =>
    cases s with
    | none => rfl
    | some c => exact ofText_printChar
  | star => rfl
  | bar => rfl
  | opening => rfl
  | closing => rfl

/-- The marks of a text are those that were written. -/
theorem ofText_flatMap_write : ofText (marks.flatMap write) = marks := by
  induction marks with
  | nil => rfl
  | cons m rest ih => rw [List.flatMap_cons, ofText_write, ih]

end Mark

namespace Expression

variable {required own : Precedence} {marks : List Mark} {e l r : Expression}

/-! ### The written form is that of the marks -/

/-- Enclosed marks are written as the enclosed text of the marks. -/
theorem flatMap_write_encloseMarks :
    (encloseMarks required own marks).flatMap Mark.write =
      enclose required own (marks.flatMap Mark.write) := by
  unfold encloseMarks enclose
  split
  · rw [List.cons_append, List.flatMap_cons, List.flatMap_append, List.flatMap_singleton]
    rfl
  · rfl

/-- An expression is written mark by mark. -/
theorem flatMap_write_marks (e : Expression) : e.marks.flatMap Mark.write = e.print := by
  induction e with
  | atom s => cases s <;> exact List.flatMap_singleton _ _
  | seq l r ihl ihr =>
    rw [Expression.marks, List.flatMap_append, flatMap_write_encloseMarks,
      flatMap_write_encloseMarks, ihl, ihr, print]
  | alt l r ihl ihr =>
    rw [Expression.marks, List.flatMap_append, List.flatMap_cons, flatMap_write_encloseMarks,
      flatMap_write_encloseMarks, ihl, ihr, print]
    rfl
  | star e ih =>
    rw [Expression.marks, List.flatMap_append, List.flatMap_singleton, flatMap_write_encloseMarks,
      ih, print]
    rfl

/-! ### What marks do to the open groups -/

/-- The marks add a factor to any group. -/
def ReadAsFactor (marks : List Mark) (e : Expression) : Prop :=
  ∀ group outer, marks.foldlM Mark.read (group :: outer) = some (group.push e :: outer)

/-- The marks fill a group that has no factors since the last bar. -/
def ReadAsFactors (marks : List Mark) (e : Expression) : Prop :=
  ∀ before outer, ∃ factors : Factors, factors.joined = e ∧
    marks.foldlM Mark.read ({ before } :: outer) = some ({ before, factors := some factors } :: outer)

/-- The marks fill a group in which nothing has been read. -/
def ReadAsGroup (marks : List Mark) (e : Expression) : Prop :=
  ∀ outer, ∃ group : Group, group.joined = some e ∧
    marks.foldlM Mark.read ({} :: outer) = some (group :: outer)

/-- What the marks of an expression do that binds as tightly as given. -/
def ReadAs : Precedence → List Mark → Expression → Prop
  | .atom => ReadAsFactor
  | .concatenation => ReadAsFactors
  | .alternation => ReadAsGroup

/-- What reads as a factor reads as factors. -/
theorem ReadAsFactor.readAsFactors (h : ReadAsFactor marks e) : ReadAsFactors marks e :=
  fun before outer => ⟨⟨none, e⟩, rfl, h { before } outer⟩

/-- What reads as factors reads as a group. -/
theorem ReadAsFactors.readAsGroup (h : ReadAsFactors marks e) : ReadAsGroup marks e := by
  intro outer
  obtain ⟨factors, hjoined, hread⟩ := h none outer
  exact ⟨⟨none, some factors⟩, congrArg some hjoined, hread⟩

/-- Between parentheses, what fills a group is a factor of the group around it. -/
theorem ReadAsGroup.enclosed (h : ReadAsGroup marks e) :
    ReadAsFactor (.opening :: marks ++ [.closing]) e := by
  intro enclosing outer
  obtain ⟨group, hjoined, hread⟩ := h (enclosing :: outer)
  change (marks ++ [Mark.closing]).foldlM Mark.read ({} :: enclosing :: outer) = _
  rw [List.foldlM_append, hread]
  simp [Mark.read, hjoined]

/-- What reads at any precedence reads as a group. -/
theorem ReadAs.readAsGroup (h : ReadAs own marks e) : ReadAsGroup marks e := by
  cases own with
  | alternation => exact h
  | concatenation => exact ReadAsFactors.readAsGroup h
  | atom => exact (ReadAsFactor.readAsFactors h).readAsGroup

/-- With parentheses where they are required, an operand fits its place. -/
theorem ReadAs.encloseMarks (required : Precedence) (h : ReadAs own marks e) :
    ReadAs required (encloseMarks required own marks) e := by
  unfold Expression.encloseMarks
  split
  · have hfactor := h.readAsGroup.enclosed
    cases required with
    | alternation => exact hfactor.readAsFactors.readAsGroup
    | concatenation => exact hfactor.readAsFactors
    | atom => exact hfactor
  · next htight =>
    cases required with
    | alternation => exact h.readAsGroup
    | concatenation =>
      cases own with
      | alternation => exact absurd (by decide) htight
      | concatenation => exact h
      | atom => exact ReadAsFactor.readAsFactors h
    | atom =>
      cases own with
      | alternation => exact absurd (by decide) htight
      | concatenation => exact absurd (by decide) htight
      | atom => exact h

/-- The marks of an expression are read as that expression, as tightly as it binds. -/
theorem readAs_marks (e : Expression) : ReadAs e.precedence e.marks e := by
  induction e with
  | atom s => exact fun group outer => rfl
  | seq l r ihl ihr =>
    have hl : ReadAsFactors _ l := ihl.encloseMarks .concatenation
    have hr : ReadAsFactor _ r := ihr.encloseMarks .atom
    intro before outer
    obtain ⟨factors, hjoined, hread⟩ := hl before outer
    -- The factors of the left part are joined when the right part is added.
    refine ⟨⟨some factors.joined, r⟩, ?_, ?_⟩
    · rw [hjoined]
      rfl
    · rw [Expression.marks, List.foldlM_append, hread]
      exact hr _ outer
  | alt l r ihl ihr =>
    have hl : ReadAsGroup _ l := ihl.encloseMarks .alternation
    have hr : ReadAsFactors _ r := ihr.encloseMarks .concatenation
    intro outer
    obtain ⟨group, hgroup, hread⟩ := hl outer
    obtain ⟨factors, hjoined, hread'⟩ := hr (some l) outer
    have hbar : Mark.read (group :: outer) .bar = some ({ before := some l } :: outer) := by
      simp [Mark.read, Group.endAlternative, hgroup]
    refine ⟨⟨some l, some factors⟩, ?_, ?_⟩
    · rw [← hjoined]
      rfl
    · rw [Expression.marks, List.foldlM_append, hread]
      change (Mark.read (group :: outer) .bar).bind _ = _
      rw [hbar]
      exact hread'
  | star e ih =>
    have he : ReadAsFactor _ e := ih.encloseMarks .atom
    intro group outer
    rw [Expression.marks, List.foldlM_append, he]
    rfl

/-! ### Reading back -/

/-- The marks of an operand are read back as the operand. -/
theorem ofMarks?_encloseMarks (required : Precedence) (e : Expression) :
    ofMarks? (encloseMarks required e.precedence e.marks) = some e := by
  have hgroup : ReadAsGroup _ e := (e.readAs_marks.encloseMarks required).readAsGroup
  obtain ⟨group, hjoined, hread⟩ := hgroup []
  rw [ofMarks?, hread]
  exact hjoined

/-- The written form of an operand is read as the operand, whatever its place requires. -/
theorem read?_printOperand (required : Precedence) (e : Expression) :
    read? (e.printOperand required) = some e := by
  rw [read?, printOperand, ← flatMap_write_marks, ← flatMap_write_encloseMarks,
    Mark.ofText_flatMap_write, ofMarks?_encloseMarks]

/-- No place is too tight for an alternation that stands alone. -/
theorem printOperand_alternation (e : Expression) : e.printOperand .alternation = e.print := by
  rw [printOperand, enclose, Precedence.strength, if_neg (Nat.not_lt_zero _)]

/-- Operands are printed the same just if they are the same. -/
theorem printOperand_inj (required : Precedence) :
    l.printOperand required = r.printOperand required ↔ l = r := by
  constructor
  · intro h
    have hread := read?_printOperand required l
    rw [h, read?_printOperand, Option.some.injEq] at hread
    exact hread.symm
  · exact congrArg _

/-- Only one expression has a given written form, whether it stands alone or as an operand. -/
theorem toString_eq_iff :
    (∀ l r : Expression, toString l = toString r ↔ l = r) ∧
      ∀ (required : Precedence) (l r : Expression),
        l.printOperand required = r.printOperand required ↔ l = r := by
  refine ⟨fun l r => ?_, fun required l r => printOperand_inj required⟩
  change String.ofList l.print = String.ofList r.print ↔ l = r
  rw [String.ofList_inj, ← printOperand_alternation, ← printOperand_alternation,
    printOperand_inj]

example : read? ['a', '(', 'b', '|', '\\', '*', ')', '*', 'ε'] =
    some (seq (seq (char 'a') (star (alt (char 'b') (char '*')))) epsilon) := by decide

end Expression

end Recognizer
