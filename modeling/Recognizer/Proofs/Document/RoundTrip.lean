import Recognizer.Proofs.Document.Layout
import Recognizer.Proofs.Document.Reading

/-!
# Written documents read back

The document of an automaton states its finishes and its transitions, and nothing about vertices
that none of them mentions. Reading it gives the automaton without such vertices, provided that no
transition is on a line break; otherwise it cannot be read at all, so the writer refuses exactly the
automata that are lost (`read_toString_roundTrip`).
-/

namespace Recognizer

open Std Text Document

/-- Digits are no white space. -/
theorem isWhiteSpace_of_isDigit {c : Char} (h : c.isDigit = true) : isWhiteSpace c = false := by
  have hrange : 48 ≤ c.toNat ∧ c.toNat ≤ 57 := by
    simpa [Char.isDigit, UInt32.le_iff_toNat_le] using h
  simp only [isWhiteSpace, inRanges, whiteSpaceRanges, List.any_cons, List.any_nil, Bool.or_false,
    Bool.or_eq_false_iff, Bool.and_eq_false_iff, decide_eq_false_iff_not]
  omega

/-- The numeral of a vertex is a name. -/
theorem isName_write (q : Vertex) : IsName (Numeral.write q) where
  ne_nil := Nat.toDigits_ne_nil
  not_isWhiteSpace _ hc :=
    isWhiteSpace_of_isDigit (Nat.isDigit_of_mem_toDigits (by decide) (by decide) hc)

namespace Automaton

variable {A : Automaton} {q r : Vertex} {s : Symbol} {text : String}

/-! ### Unmentioned vertices -/

/-- Whether `q` is the start, a finish or an end of a transition. -/
def mentions (A : Automaton) (q : Vertex) : Bool :=
  A.start == q || A.isFinish q || A.transitions.any fun t => t.source == q || t.target == q

/-- The automaton without the vertices that its document does not mention. -/
def dropUnmentioned (A : Automaton) : Automaton :=
  { A with outgoing := A.outgoing.filter fun q _ => A.mentions q }

/-- What is mentioned is the start, the finishes and the ends of transitions. -/
theorem mentions_iff :
    A.mentions q = true ↔ q = A.start ∨ A.isFinish q = true ∨
      ∃ t ∈ A.transitions, q = t.source ∨ q = t.target := by
  simp only [mentions, Bool.or_eq_true, beq_iff_eq, List.any_eq_true, or_assoc, eq_comm (b := q)]

/-- Both ends of a transition are mentioned. -/
theorem mentions_of_mem_successors (h : r ∈ A.successors q s) :
    A.mentions q = true ∧ A.mentions r = true := by
  have ht : ⟨q, s, r⟩ ∈ A.transitions := mem_transitions_iff.2 h
  exact ⟨mentions_iff.2 (Or.inr (Or.inr ⟨_, ht, Or.inl rfl⟩)),
    mentions_iff.2 (Or.inr (Or.inr ⟨_, ht, Or.inr rfl⟩))⟩

/-- The table keeps the entries of the mentioned vertices. -/
theorem getElem?_outgoing_dropUnmentioned :
    A.dropUnmentioned.outgoing[q]? = if A.mentions q then A.outgoing[q]? else none := by
  rw [dropUnmentioned, ExtTreeMap.getElem?_filter']
  cases A.outgoing[q]? with
  | none => simp
  | some out => rfl

/-- The vertices that are mentioned are kept, and no others. -/
@[simp]
theorem contains_dropUnmentioned :
    A.dropUnmentioned.contains q = true ↔ A.contains q = true ∧ A.mentions q = true := by
  rw [contains_iff_getElem?_ne_none, contains_iff_getElem?_ne_none,
    getElem?_outgoing_dropUnmentioned]
  split <;> simp_all

/-- No transition is lost with the unmentioned vertices. -/
@[simp]
theorem mem_successors_dropUnmentioned :
    r ∈ A.dropUnmentioned.successors q s ↔ r ∈ A.successors q s := by
  by_cases hq : A.mentions q = true
  · rw [successors, getElem?_outgoing_dropUnmentioned, if_pos hq, successors]
  · refine ⟨fun h => ?_, fun h => absurd (mentions_of_mem_successors h).1 hq⟩
    rw [successors, getElem?_outgoing_dropUnmentioned, if_neg hq] at h
    simp at h

/-- What is mentioned is a vertex. -/
theorem WellFormed.contains_of_mentions (hA : A.WellFormed) (h : A.mentions q = true) :
    A.contains q = true := by
  rcases mentions_iff.1 h with rfl | hq | ⟨t, ht, rfl | rfl⟩
  · exact hA.contains_start
  · exact hA.contains_finish q hq
  · exact (hA.contains_ends ht).1
  · exact (hA.contains_ends ht).2

/-- What is left is well-formed. -/
theorem WellFormed.dropUnmentioned (hA : A.WellFormed) : A.dropUnmentioned.WellFormed where
  contains_start :=
    contains_dropUnmentioned.2 ⟨hA.contains_start, mentions_iff.2 (Or.inl rfl)⟩
  contains_finish q hq :=
    contains_dropUnmentioned.2 ⟨hA.contains_finish q hq, mentions_iff.2 (Or.inr (Or.inl hq))⟩
  contains_target q s r hr := by
    rw [mem_successors_dropUnmentioned] at hr
    exact contains_dropUnmentioned.2 ⟨hA.contains_target q s r hr, (mentions_of_mem_successors hr).2⟩
  ne_empty q out s targets hout htargets := by
    rw [getElem?_outgoing_dropUnmentioned, Option.ite_none_right_eq_some] at hout
    exact hA.ne_empty q out s targets hout.2 htargets

/-- Where every vertex is mentioned, none is dropped. -/
theorem WellFormed.dropUnmentioned_eq_self (hA : A.WellFormed)
    (h : ∀ q, A.contains q = true → A.mentions q = true) : A.dropUnmentioned = A := by
  refine hA.dropUnmentioned.ext hA rfl (fun q => ?_) (fun q => rfl) fun q s => ?_
  · rw [Bool.eq_iff_iff, contains_dropUnmentioned]
    exact and_iff_left_of_imp (h q)
  · exact ExtTreeSet.ext_mem fun r => mem_successors_dropUnmentioned

/-! ### The facts of a document -/

/-- What the document of an automaton says. -/
def facts (A : Automaton) : List Fact :=
  A.finishes.toList.map Fact.finish ++ A.transitions.map Fact.transition

/-- The finishes are those among the facts. -/
theorem finish_mem_facts : .finish q ∈ A.facts ↔ A.isFinish q = true := by
  simp [facts, isFinish]

/-- The transitions are those among the facts. -/
theorem transition_mem_facts {t : Transition Vertex} :
    .transition t ∈ A.facts ↔ t ∈ A.transitions := by
  simp [facts]

/-- The vertices of the facts are mentioned, and the start is. -/
theorem mentions_iff_mem_facts :
    A.mentions q = true ↔ q = A.start ∨ ∃ f ∈ A.facts, q ∈ f.vertices := by
  rw [mentions_iff]
  apply or_congr_right
  apply Iff.intro
  · intro h
    rcases h with h | ⟨t, ht, h⟩
    · exact ⟨_, finish_mem_facts.2 h, List.mem_cons_self⟩
    · exact ⟨_, transition_mem_facts.2 ht, by simpa [Fact.vertices] using h⟩
  · intro h
    obtain ⟨f, hf, hq⟩ := h
    cases f with
    | finish p =>
      rw [List.mem_singleton.1 hq]
      exact Or.inl (finish_mem_facts.1 hf)
    | transition t =>
      exact Or.inr ⟨t, transition_mem_facts.1 hf, by simpa [Fact.vertices] using hq⟩

/-- The facts describe the automaton without its unmentioned vertices. -/
theorem ofFacts_facts (hA : A.WellFormed) : ofFacts A.start A.facts = A.dropUnmentioned := by
  refine wellFormed_ofFacts.ext hA.dropUnmentioned start_ofFacts (fun q => ?_) (fun q => ?_)
    fun q s => ExtTreeSet.ext_mem fun r => ?_
  · rw [Bool.eq_iff_iff, contains_ofFacts, contains_dropUnmentioned, ← mentions_iff_mem_facts]
    exact (and_iff_right_of_imp hA.contains_of_mentions).symm
  · rw [Bool.eq_iff_iff, isFinish_ofFacts, finish_mem_facts]
    rfl
  · rw [mem_successors_ofFacts, transition_mem_facts, mem_transitions_iff,
      mem_successors_dropUnmentioned]

/-! ### Writing and reading -/

/-- The names of a document resolve to the facts that it was written from. -/
theorem resolve?_written (start : Vertex) (finishes : List Vertex)
    (transitions : List (Transition Vertex)) :
    Contents.resolve? ⟨Numeral.write start, (finishes.map Numeral.write).map Statement.finish ++
      (transitions.map (Transition.rename Numeral.write)).map Statement.transition⟩ =
      some (start, finishes.map Fact.finish ++ transitions.map Fact.transition) := by
  have hfinishes : (finishes.map (Statement.finish ∘ Numeral.write)).mapM Statement.resolve? =
      some (finishes.map Fact.finish) := by
    rw [List.mapM_map]
    apply mapM_eq_some_map
    intro q _
    simp [Statement.resolve?, Numeral.read_write]
  have htransitions : (transitions.map
      (Statement.transition ∘ Transition.rename Numeral.write)).mapM Statement.resolve? =
        some (transitions.map Fact.transition) := by
    rw [List.mapM_map]
    apply mapM_eq_some_map
    intro t _
    simp [Statement.resolve?, Transition.rename, Numeral.read_write]
  rw [Contents.resolve?, List.map_map, List.map_map, List.mapM_append, hfinishes, htransitions,
    Numeral.read_write]
  rfl

/-- The document of an automaton names all vertices by numerals. -/
theorem isName_of_mem_written {t : Transition (List Char)}
    (h : t ∈ A.transitions.map (Transition.rename Numeral.write)) :
    IsName t.source ∧ IsName t.target := by
  obtain ⟨t, _, rfl⟩ := List.mem_map.1 h
  exact ⟨isName_write t.source, isName_write t.target⟩

/-- A finish is written as a name. -/
theorem isName_of_mem_finishes {name : List Char}
    (h : name ∈ A.finishes.toList.map Numeral.write) : IsName name := by
  obtain ⟨q, _, rfl⟩ := List.mem_map.1 h
  exact isName_write q

/-- Whether every transition can be written on its line. -/
def IsWritable (A : Automaton) : Prop :=
  ∀ t ∈ A.transitions, ∀ c ∈ t.symbol, isLineBreak c = false

/-- The text of an automaton is its document. -/
theorem toList_toString : (toString A).toList = A.document :=
  String.toList_ofList

/-- What the document of an automaton states. -/
def contents (A : Automaton) : Contents where
  start := Numeral.write A.start
  statements := (A.finishes.toList.map Numeral.write).map Statement.finish ++
    (A.transitions.map (Transition.rename Numeral.write)).map Statement.transition

/-- The document of an automaton has its contents, unless a symbol breaks its line. -/
theorem ofLines?_toString (hsymbols : A.IsWritable) :
    Contents.ofLines? (lines (toString A).toList) = some A.contents := by
  have hwritten : ∀ t ∈ A.transitions.map (Transition.rename Numeral.write),
      ∀ c ∈ t.symbol, isLineBreak c = false := List.forall_mem_map.2 hsymbols
  rw [toList_toString, document,
    ofLines?_layout (isName_write A.start) (fun _ => isName_of_mem_finishes)
      (fun _ => isName_of_mem_written) hwritten, contents]

/-- What an automaton states resolves to its start and its facts. -/
theorem resolve?_contents : A.contents.resolve? = some (A.start, A.facts) :=
  resolve?_written A.start A.finishes.toList A.transitions

/-- The document of an automaton reads back, less the unmentioned vertices. -/
theorem read_toString (hA : A.WellFormed) (hsymbols : A.IsWritable) :
    read (toString A) = .ok A.dropUnmentioned := by
  rw [← toOption_eq_some_iff, toOption_read, ofLines?_toString hsymbols, Option.bind_some,
    resolve?_contents, Option.map_some, ← ofFacts_facts hA]

/-- The document of an automaton with a transition on a line break cannot be read. -/
theorem read_toString_ne_ok (hsymbols : ¬ A.IsWritable) (B : Automaton) :
    read (toString A) ≠ .ok B := by
  simp only [IsWritable, not_forall, Bool.not_eq_false] at hsymbols
  obtain ⟨t, ht, c, hc, hbreak⟩ := hsymbols
  have hmem : t.rename Numeral.write ∈ A.transitions.map (Transition.rename Numeral.write) :=
    List.mem_map_of_mem ht
  intro hread
  rw [← toOption_eq_some_iff, toOption_read, toList_toString, document,
    ofLines?_layout_eq_none (isName_write A.start) (fun _ => isName_of_mem_finishes)
      (fun _ => isName_of_mem_written) hmem hc hbreak] at hread
  cases hread

/-- The writer refuses line breaks as symbols. -/
theorem unwritableSymbol?_eq_none_iff : A.unwritableSymbol? = none ↔ A.IsWritable := by
  simp only [unwritableSymbol?, List.findSome?_eq_none_iff, Option.filter_eq_none_iff, IsWritable,
    Option.mem_def, Bool.not_eq_true]

/-- The symbol that the writer complains of is a line break that some transition is on. -/
theorem exists_of_unwritableSymbol? {c : Char} (h : A.unwritableSymbol? = some c) :
    isLineBreak c = true ∧ ∃ t ∈ A.transitions, t.symbol = some c := by
  obtain ⟨t, ht, hsymbol⟩ := List.exists_of_findSome?_eq_some h
  rw [Option.filter_eq_some_iff] at hsymbol
  exact ⟨hsymbol.2, t, ht, hsymbol.1⟩

/-- The writer refuses nothing else, and what it writes is the document. -/
theorem write_eq_ok_iff : A.write = .ok text ↔ A.IsWritable ∧ toString A = text := by
  rw [← unwritableSymbol?_eq_none_iff, write]
  cases A.unwritableSymbol? with
  | none => simp
  | some c => simp

/-- An automaton is writable if no symbol is a line break. -/
theorem isWritable_iff :
    A.IsWritable ↔ ∀ t ∈ A.transitions, t.symbol ≠ some '\n' ∧ t.symbol ≠ some '\r' := by
  refine forall₂_congr fun t _ => ⟨fun h => ⟨fun hc => ?_, fun hc => ?_⟩, fun h c hc => ?_⟩
  · exact absurd (h '\n' hc) (by decide)
  · exact absurd (h '\r' hc) (by decide)
  · rw [isLineBreak, Bool.or_eq_false_iff, beq_eq_false_iff_ne, beq_eq_false_iff_ne]
    exact ⟨fun hfeed => h.1 (hfeed ▸ hc), fun hreturn => h.2 (hreturn ▸ hc)⟩

/-- The document of a well-formed automaton can be read exactly if it can be written, that is, if no
transition is on a line break. What is written then reads back as the automaton without the vertices
that it does not mention, hence as the automaton itself if it mentions all. -/
theorem read_toString_roundTrip (A : Automaton) (hA : A.WellFormed) :
    ((∃ B, read (toString A) = .ok B) ↔ ∃ text, A.write = .ok text) ∧
      ((∃ text, A.write = .ok text) ↔
        ∀ t ∈ A.transitions, t.symbol ≠ some '\n' ∧ t.symbol ≠ some '\r') ∧
      ∀ text, A.write = .ok text →
        toString A = text ∧ read text = .ok A.dropUnmentioned ∧
          ((∀ q, A.contains q = true → A.mentions q = true) → read text = .ok A) := by
  have hwrite : (∃ text, A.write = .ok text) ↔ A.IsWritable := by
    refine ⟨fun h => ?_, fun h => ⟨_, write_eq_ok_iff.2 ⟨h, rfl⟩⟩⟩
    obtain ⟨text, htext⟩ := h
    exact (write_eq_ok_iff.1 htext).1
  refine ⟨?_, hwrite.trans isWritable_iff, fun text htext => ?_⟩
  · rw [hwrite]
    refine ⟨fun h => ?_, fun h => ⟨_, read_toString hA h⟩⟩
    obtain ⟨B, hB⟩ := h
    by_contra hsymbols
    exact read_toString_ne_ok hsymbols B hB
  · obtain ⟨hsymbols, rfl⟩ := write_eq_ok_iff.1 htext
    have hread := read_toString hA hsymbols
    refine ⟨rfl, hread, fun hmentions => ?_⟩
    rw [hread, hA.dropUnmentioned_eq_self hmentions]

/-- An automaton whose symbols are white space, with a vertex that nothing mentions. -/
def spacedLoop : Automaton :=
  [⟨0, some ' ', 1⟩, ⟨1, some '\t', 0⟩, ⟨1, none, 1⟩].foldl insertTransition
    (((singleton 0).insertVertex 1).insertVertex 7 |>.insertFinish 1)

/-- The spaced loop is well-formed. -/
theorem wellFormed_spacedLoop : spacedLoop.WellFormed := by
  refine WellFormed.foldl_insertTransition ?_ (by decide)
  exact (((WellFormed.singleton 0).insertVertex 1).insertVertex 7).insertFinish (by decide)

/-- The spaced loop is written and reads back without its isolated vertex. -/
theorem read_toString_roundTrip_spacedLoop :
    spacedLoop.WellFormed ∧ spacedLoop.write = .ok (toString spacedLoop) ∧
      read (toString spacedLoop) = .ok spacedLoop.dropUnmentioned := by
  have hwritable : spacedLoop.IsWritable := unwritableSymbol?_eq_none_iff.1 (by decide +kernel)
  have hwrite : spacedLoop.write = .ok (toString spacedLoop) := write_eq_ok_iff.2 ⟨hwritable, rfl⟩
  have hround := read_toString_roundTrip spacedLoop wellFormed_spacedLoop
  exact ⟨wellFormed_spacedLoop, hwrite, (hround.2.2 _ hwrite).2.1⟩

example : spacedLoop.write = .ok "0\n\n1\n\n0 1  \n1 1\n1 0 \t\n" := by cbv

end Automaton

end Recognizer
