import Recognizer.Proofs.Document.Grammar
import Recognizer.Proofs.Document.RoundTrip

/-!
# Documents that are read can be written again

Whatever its line ends and however its numerals are written, a document that is read gives an
automaton that can be written, and what is written then is stable under reading and writing.

There is one exception (`write_of_read`). A carriage return belongs to its line unless a line feed
follows it, so the last character of a line can be one, and after a space it is read as a symbol.
The writer has no form for it.
-/

namespace Recognizer

open Text Document

/-- The line of a transition ends in a space and a character if that is the symbol, or if the step is
silent and the character is all of the name of the target. -/
theorem Document.suffix_transitionLine_iff {t : Transition (List Char)} {c : Char}
    (ht : Spaceless t) :
    [' ', c] <:+ transitionLine t ↔ t.symbol = some c ∨ t.symbol = none ∧ t.target = [c] := by
  cases hsymbol : t.symbol with
  | none =>
    have hcut (start : List Char) : start ++ ' ' :: [c] = t.source ++ ' ' :: t.target ↔
        t.source = start ∧ t.target = [c] := by
      rw [eq_comm, List.append_cons_inj_of_notMem ht.source ht.target]
      simp
    rw [transitionLine_of_eq_none hsymbol, List.IsSuffix]
    simp [hcut]
  | some d =>
    have hline : transitionLine t = (t.source ++ ' ' :: t.target) ++ [' ', d] := by
      simp [transitionLine, hsymbol]
    rw [hline]
    constructor
    · rintro ⟨start, hstart⟩
      obtain ⟨_, hlast⟩ := List.append_inj' hstart rfl
      cases hlast
      exact Or.inl rfl
    · rintro (h | ⟨h, _⟩)
      · cases h
        exact List.suffix_append _ _
      · cases h

namespace Automaton

variable {A : Automaton} {text : String} {start q : Vertex} {facts : List Fact}
variable {named : Transition (List Char)} {t : Transition Vertex} {c : Char}

/-! ### The facts of a document -/

/-- Whether `named` is the transition `t` with numerals as names. -/
structure Describes (named : Transition (List Char)) (t : Transition Vertex) : Prop where
  source : Numeral.read named.source = some t.source
  symbol : named.symbol = t.symbol
  target : Numeral.read named.target = some t.target

/-- Facts bring in no vertex but those that they mention. -/
theorem mentions_ofFacts (h : (ofFacts start facts).contains q = true) :
    (ofFacts start facts).mentions q = true := by
  rw [mentions_iff]
  rcases contains_ofFacts.1 h with hstart | ⟨f, hf, hq⟩
  · exact Or.inl (hstart.trans start_ofFacts.symm)
  · cases f with
    | finish r =>
      rw [List.mem_singleton.1 hq]
      exact Or.inr (Or.inl (isFinish_ofFacts.2 hf))
    | transition t =>
      have ht : t ∈ (ofFacts start facts).transitions := mem_transitions_ofFacts.2 hf
      have hends : q = t.source ∨ q = t.target := by simpa [Fact.vertices] using hq
      exact Or.inr (Or.inr ⟨t, ht, hends⟩)

/-- All vertices of what is read are mentioned. -/
theorem mentions_of_read (h : read text = .ok A) (hq : A.contains q = true) :
    A.mentions q = true := by
  obtain ⟨_, _, _, _, _, rfl⟩ := exists_contents_of_read h
  exact mentions_ofFacts hq

/-- A statement of a transition resolves to the transition that it describes. -/
theorem resolve?_transition_eq_some_iff {f : Fact} :
    (Statement.transition named).resolve? = some f ↔ ∃ t, f = .transition t ∧ Describes named t := by
  simp only [Statement.resolve?, bind, Option.bind_eq_some_iff, pure, Option.some.injEq]
  constructor
  · rintro ⟨source, hsource, target, htarget, rfl⟩
    exact ⟨_, rfl, hsource, rfl, htarget⟩
  · rintro ⟨t, rfl, ht⟩
    refine ⟨t.source, ht.source, t.target, ht.target, ?_⟩
    rw [ht.symbol]

/-- No statement of a finish resolves to a transition. -/
theorem exists_describes_of_resolve? {statement : Statement}
    (h : statement.resolve? = some (.transition t)) :
    ∃ named, statement = .transition named ∧ Describes named t := by
  cases statement with
  | finish name => simp [Statement.resolve?] at h
  | transition named =>
    obtain ⟨_, heq, hdescribes⟩ := resolve?_transition_eq_some_iff.1 h
    cases heq
    exact ⟨named, rfl, hdescribes⟩

/-- The transitions that are read are those that the lines of the transition section describe. -/
theorem mem_transitions_of_read (h : read text = .ok A) :
    (∀ t ∈ A.transitions, ∃ named, transitionLine named ∈ transitionLines text ∧
        Spaceless named ∧ Describes named t) ∧
      ∀ line ∈ transitionLines text, ∃ named, transitionLine named = line ∧
        Spaceless named ∧ ∃ t ∈ A.transitions, Describes named t := by
  obtain ⟨contents, start, facts, hcontents, hfacts, rfl⟩ := exists_contents_of_read h
  have hstated := (Contents.ofLines?_eq_some hcontents).2
  obtain ⟨hmem, hresolved⟩ := mem_of_mapM_eq_some hfacts
  constructor
  · intro t ht
    obtain ⟨statement, hstatement, hresolve⟩ := (hmem _).1 (mem_transitions_ofFacts.1 ht)
    obtain ⟨named, rfl, hdescribes⟩ := exists_describes_of_resolve? hresolve
    obtain ⟨hline, hnamed⟩ := (hstated.transition_iff named).1 hstatement
    exact ⟨named, hline, hnamed, hdescribes⟩
  · intro line hline
    obtain ⟨named, hstatement, hwritten⟩ := hstated.exists_transition line hline
    obtain ⟨f, hf, hresolve⟩ := hresolved _ hstatement
    obtain ⟨t, rfl, hdescribes⟩ := resolve?_transition_eq_some_iff.1 hresolve
    have hnamed := ((hstated.transition_iff named).1 hstatement).2
    exact ⟨named, hwritten, hnamed, t, mem_transitions_ofFacts.2 hf, hdescribes⟩

/-- A transition is on a character that is no numeral if a line ends in a space and the
character. -/
theorem exists_transition_on_iff (h : read text = .ok A) (hc : Numeral.read [c] = none) :
    (∃ t ∈ A.transitions, t.symbol = some c) ↔ ∃ line ∈ transitionLines text, [' ', c] <:+ line := by
  obtain ⟨htransitions, hlines⟩ := mem_transitions_of_read h
  constructor
  · rintro ⟨t, ht, hsymbol⟩
    obtain ⟨named, hline, hnamed, hdescribes⟩ := htransitions t ht
    have hsuffix : [' ', c] <:+ transitionLine named :=
      (suffix_transitionLine_iff hnamed).2 (Or.inl (hdescribes.symbol.trans hsymbol))
    exact ⟨_, hline, hsuffix⟩
  · rintro ⟨line, hline, hsuffix⟩
    obtain ⟨named, rfl, hnamed, t, ht, hdescribes⟩ := hlines line hline
    have hsounding : ¬(named.symbol = none ∧ named.target = [c]) := by
      intro hsilent
      have hnumeral := hdescribes.target
      rw [hsilent.2, hc] at hnumeral
      cases hnumeral
    have hsymbol : named.symbol = some c :=
      ((suffix_transitionLine_iff hnamed).1 hsuffix).resolve_right hsounding
    exact ⟨t, ht, hdescribes.symbol.symm.trans hsymbol⟩

/-- No line holds a line feed, so no symbol is one. -/
theorem symbol_ne_lineFeed_of_read (h : read text = .ok A) (ht : t ∈ A.transitions) :
    t.symbol ≠ some '\n' := by
  intro hsymbol
  obtain ⟨line, hline, hsuffix⟩ :=
    (exists_transition_on_iff h (by decide)).1 ⟨t, ht, hsymbol⟩
  have hmem : '\n' ∈ line := hsuffix.subset (by simp)
  exact not_mem_lineFeed_of_mem_lines (mem_lines_of_mem_transitionLines hline) hmem

/-! ### Writing what was read -/

/-- What is read can be written, unless a line of the transition section ends in a space and a
carriage return. What is written reads back to the same automaton, and so it is written again. -/
theorem write_of_read (text : String) (A : Automaton) (h : read text = .ok A) :
    (∀ t ∈ A.transitions, t.symbol ≠ some '\n') ∧
      ((∃ line ∈ transitionLines text, [' ', '\r'] <:+ line) →
        A.write = .error (.unwritableSymbol '\r')) ∧
      ((∀ line ∈ transitionLines text, ¬[' ', '\r'] <:+ line) →
        ∃ written, A.write = .ok written ∧ read written = .ok A ∧
          ∀ B, read written = .ok B → B.write = .ok written) := by
  have hreturn := exists_transition_on_iff (c := '\r') h (by decide)
  refine ⟨fun t => symbol_ne_lineFeed_of_read h, fun hline => ?_, fun hlines => ?_⟩
  · obtain ⟨t, ht, hsymbol⟩ := hreturn.2 hline
    have hbroken : ¬A.IsWritable := fun hsymbols => absurd (hsymbols t ht '\r' hsymbol) (by decide)
    rw [← unwritableSymbol?_eq_none_iff] at hbroken
    obtain ⟨c, hc⟩ := Option.ne_none_iff_exists'.1 hbroken
    obtain ⟨hbreak, u, hu, husymbol⟩ := exists_of_unwritableSymbol? hc
    have hfeed : c ≠ '\n' := fun heq => symbol_ne_lineFeed_of_read h hu (heq ▸ husymbol)
    have heq : c = '\r' := by simpa [isLineBreak, hfeed] using hbreak
    rw [write, hc, heq]
  · have hsymbols : A.IsWritable := by
      refine isWritable_iff.2 fun t ht => ⟨symbol_ne_lineFeed_of_read h ht, fun hsymbol => ?_⟩
      obtain ⟨line, hline, hsuffix⟩ := hreturn.1 ⟨t, ht, hsymbol⟩
      exact hlines line hline hsuffix
    have hwrite : A.write = .ok (toString A) := write_eq_ok_iff.2 ⟨hsymbols, rfl⟩
    have hA := wellFormed_of_read h
    have hread : read (toString A) = .ok A := by
      rw [read_toString hA hsymbols, hA.dropUnmentioned_eq_self fun q => mentions_of_read h]
    refine ⟨toString A, hwrite, hread, fun B hB => ?_⟩
    rw [hread] at hB
    cases hB
    exact hwrite

/-- A step from a vertex to the next. -/
def singleStep : Automaton :=
  ofFacts 0 [.finish 1, .transition ⟨0, some 'a', 1⟩]

/-- A document with signs, leading zeros and two characters at the end of each line is read, and what
is written then reads back. -/
theorem write_of_read_singleStep :
    read "0\r\n\r\n1\r\n\r\n+0 01 a\r\n" = .ok singleStep ∧
      ∃ written, singleStep.write = .ok written ∧ read written = .ok singleStep := by
  have hread : read "0\r\n\r\n1\r\n\r\n+0 01 a\r\n" = .ok singleStep := rfl
  have hlines : ∀ line ∈ transitionLines "0\r\n\r\n1\r\n\r\n+0 01 a\r\n", ¬[' ', '\r'] <:+ line := by
    decide
  obtain ⟨written, hwrite, hreread, _⟩ := (write_of_read _ _ hread).2.2 hlines
  exact ⟨hread, written, hwrite, hreread⟩

/-- A document whose last line is not ended, and holds a carriage return as its symbol, is read but
cannot be written. -/
theorem exists_read_not_written :
    ∃ A, read "0\n\n\n0 0 \r" = .ok A ∧ A.write = .error (.unwritableSymbol '\r') :=
  ⟨ofFacts 0 [.transition ⟨0, some '\r', 0⟩], rfl, rfl⟩

end Automaton

end Recognizer
