import Recognizer.Proofs.Document.NamedRoundTrip
import Recognizer.Proofs.Naming.Editing
import Recognizer.Proofs.Totality

/-!
# Languages after writing and reading

A document that is written by names reads back to an automaton that accepts no less than what was
written (`accepts_contents_of_accepts`), and no more if the names of vertices are distinct. After operations
behind the names they need not be: the numeral of a vertex without label may be the label of another
vertex. The two then become one vertex in the document, and nothing keeps the writer from writing it
(`read_write_language`, `exists_edited_confused`).
-/

namespace Recognizer

open Std

namespace Automaton

variable {A : Automaton} {w : List Char} {characters : Alphabet}

/-- Vertices that nothing mentions have no part in accepting. -/
theorem accepts_dropUnmentioned : A.dropUnmentioned.Accepts w ↔ A.Accepts w := by
  have hless : IsHomomorphism id A.dropUnmentioned A :=
    ⟨rfl, fun _ hq => hq, fun _ _ _ hr => mem_successors_dropUnmentioned.1 hr⟩
  have hmore : IsHomomorphism id A A.dropUnmentioned :=
    ⟨rfl, fun _ hq => hq, fun _ _ _ hr => mem_successors_dropUnmentioned.2 hr⟩
  exact ⟨hless.accepts, hmore.accepts⟩

/-- Whether or not it succeeds, completion does not change what is accepted. -/
theorem WellFormed.accepts_totalizeOver (hA : A.WellFormed) :
    ((Operation.totalizeOver characters).after A).Accepts w ↔ A.Accepts w := by
  rw [Operation.after, Operation.perform]
  cases h : A.totalizeOver characters with
  | error e => rfl
  | ok result =>
    obtain ⟨sink, B⟩ := result
    have hextends : B.Extends A := extends_of_totalizeOver hA h
    change B.AcceptsFrom B.start w ↔ A.AcceptsFrom A.start w
    rw [hextends.start_eq]
    exact hextends.acceptsFrom_iff A.start w hA.contains_start

/-- Without transitions only the empty word can be accepted. -/
theorem eq_nil_of_accepts (htransitions : A.transitions = []) (h : A.Accepts w) : w = [] := by
  obtain ⟨p, _, hpath⟩ := h
  cases hpath with
  | nil q => rfl
  | @step _ r _ s _ first rest =>
    have hmem : ⟨A.start, s, r⟩ ∈ A.transitions := mem_transitions_iff.2 first
    rw [htransitions] at hmem
    cases hmem

end Automaton

namespace NamedAutomaton

variable {L : NamedAutomaton} {w : List Char}

/-- What is accepted is still accepted after writing and reading. -/
theorem accepts_contents_of_accepts (hwell : L.automaton.WellFormed) (hw : L.automaton.Accepts w) :
    (ofContents L.contents).automaton.Accepts w := by
  have hread := isTight_ofContents_contents hwell
  obtain ⟨hstart, _, hfinishes, htransitions⟩ := beq_iff.1 (beq_ofContents_contents hwell)
  have hkeep := isHomomorphism_matchNames hread.toIsLabelled.hasDistinctNames hread.wellFormed
    hstart.symm (fun _ hname => hfinishes ▸ hname) (fun _ ht => htransitions ▸ ht)
  exact hkeep.accepts (Automaton.accepts_dropUnmentioned.2 hw)

/-- If the mentioned vertices have distinct names, nothing else is accepted. -/
theorem accepts_contents_iff (hwell : L.automaton.WellFormed)
    (hdistinct : Set.InjOn L.name {q | L.automaton.mentions q = true}) :
    (ofContents L.contents).automaton.Accepts w ↔ L.automaton.Accepts w := by
  have hiso := (isIsomorphism_contents hwell hdistinct).1
  have hread := isTight_ofContents_contents hwell
  rw [← Automaton.accepts_dropUnmentioned (A := L.automaton),
    hiso.accepts_iff hwell.dropUnmentioned hread.wellFormed]

/-- What is written after any operations reads back, and whatever was accepted is accepted then. Two
vertices go by one name just if the numeral of the one, which has no label, is the label of the other.
Unless this happens to vertices that the document mentions, nothing else is accepted. -/
theorem read_write_language (hL : L.Edited) (text : String) (hwrite : L.write = .ok text) :
    ∃ M, read text = .ok M ∧
      (∀ w, L.automaton.Accepts w → M.automaton.Accepts w) ∧
      (∀ q r, q ≠ r → (L.name q = L.name r ↔ L.IsMistakenFor q r ∨ L.IsMistakenFor r q)) ∧
      ((∀ q r, L.automaton.mentions q = true → L.automaton.mentions r = true →
          ¬L.IsMistakenFor q r) →
        ∀ w, M.automaton.Accepts w ↔ L.automaton.Accepts w) := by
  obtain ⟨hwritable, rfl⟩ := write_eq_ok_iff.1 hwrite
  have hwell := hL.wellFormed
  have hname {q r : Vertex} (hne : q ≠ r) := name_eq_name_iff hL.nodup_labels hne
  refine ⟨ofContents L.contents, read_toString hwell hwritable,
    fun w => accepts_contents_of_accepts hwell, fun q r => hname, fun hclear w => ?_⟩
  have hdistinct : Set.InjOn L.name {q | L.automaton.mentions q = true} := by
    intro q hq r hr heq
    by_contra hne
    rcases (hname hne).1 heq with hmistaken | hmistaken
    · exact hclear q r hq hr hmistaken
    · exact hclear r q hr hq hmistaken
  exact accepts_contents_iff hwell hdistinct

/-- A vertex that is both start and finish. -/
def point (label : List Char) : NamedAutomaton :=
  ofContents ⟨label, [.finish label]⟩

/-- The point completed over one character. The sink has no label. -/
def completedPoint (label : List Char) : NamedAutomaton :=
  (Edit.operate (.totalizeOver (ExtTreeSet.ofList ['a']))).after (point label)

/-- The completed point comes about by reading and completion. -/
theorem edited_completedPoint {label : List Char} {text : String} (h : read text = .ok (point label)) :
    (completedPoint label).Edited := by
  apply (Edited.read h).edit
  intro B hB
  cases hB

/-- The sink is the vertex after the only one. -/
theorem completedPoint_eq (label : List Char)
    (h : (point label).automaton = .ofFacts 0 [.finish 0]) :
    completedPoint label = { point label with
      automaton := .ofFacts 0 [.finish 0, .transition ⟨0, some 'a', 1⟩,
        .transition ⟨1, some 'a', 1⟩] } := by
  have hgreatest : (Automaton.ofFacts 0 [.finish 0]).greatestVertex = 0 := by
    have hstart : (Automaton.ofFacts 0 [.finish 0]).contains 0 = true := rfl
    simpa [Fact.vertices] using Automaton.contains_greatestVertex hstart
  rw [completedPoint, Edit.after, h, Operation.after, Operation.perform,
    Automaton.totalizeOver_eq_ok (by rw [hgreatest]; decide), Automaton.withSink, hgreatest]
  rfl

/-- Where the label is no numeral, the completed point reads back with its language. -/
theorem read_write_language_completedPoint :
    (completedPoint ['p']).Edited ∧
      (completedPoint ['p']).write = .ok "p\n\np\n\n1 1 a\np 1 a\n" ∧
      ∃ M, read "p\n\np\n\n1 1 a\np 1 a\n" = .ok M ∧
        ∀ w, M.automaton.Accepts w ↔ (completedPoint ['p']).automaton.Accepts w := by
  have hpoint : read "p\n\np\n" = .ok (point ['p']) := rfl
  have hedited := edited_completedPoint hpoint
  have hwrite : (completedPoint ['p']).write = .ok "p\n\np\n\n1 1 a\np 1 a\n" := by
    rw [completedPoint_eq ['p'] rfl]
    rfl
  have hlabels : ∀ label ∈ (completedPoint ['p']).labels.labels,
      Text.Numeral.read label.toList = none := by decide
  obtain ⟨M, hread, _, _, hlanguage⟩ := read_write_language hedited _ hwrite
  exact ⟨hedited, hwrite, M, hread, hlanguage fun _ _ _ _ => not_isMistakenFor hlabels⟩

/-- The sink of a point with the label `1` goes by the same name as the point, so it is a finish in
the document. -/
theorem exists_edited_confused :
    ∃ (L M : NamedAutomaton) (text : String), L.Edited ∧ L.write = .ok text ∧ read text = .ok M ∧
      M.automaton.Accepts ['a'] ∧ ¬L.automaton.Accepts ['a'] := by
  have hpoint : read "1\n\n1\n" = .ok (point ['1']) := rfl
  have hwrite : (completedPoint ['1']).write = .ok "1\n\n1\n\n1 1 a\n" := by
    rw [completedPoint_eq ['1'] rfl]
    rfl
  have hread : read "1\n\n1\n\n1 1 a\n" =
      .ok (ofContents ⟨['1'], [.finish ['1'], .transition ⟨['1'], some 'a', ['1']⟩]⟩) := rfl
  refine ⟨_, _, _, edited_completedPoint hpoint, hwrite, hread,
    ⟨0, by decide, .single (s := some 'a') (by decide)⟩, fun haccepts => ?_⟩
  have hfirst := (wellFormed_of_read hpoint).accepts_totalizeOver.1 haccepts
  exact absurd (Automaton.eq_nil_of_accepts (by decide) hfirst) (by decide)

end NamedAutomaton

end Recognizer
