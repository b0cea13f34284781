import Mathlib
import Recognizer.Compiler
import Recognizer.Proofs.Completion
import Recognizer.Proofs.Construction
import Recognizer.Proofs.Determinization
import Recognizer.Proofs.Elimination

/-!
# Every stage recognizes the language of the expression

The construction gives a well-formed automaton that accepts the words of the expression, and each
later stage keeps automata well-formed and their words as they are. Only identifiers can run out:
the construction needs one for every vertex, the subset construction one for every set that it
finds, and completion one for the sink.

Main statement: while the identifiers last, compilation succeeds in every configuration, and all of
its stages recognize the language of the expression (`Compiler.run_recognizes`).
-/

namespace Recognizer

/-- All stages of a compilation accept exactly the words of a language. -/
structure Compilation.Recognizes (compilation : Compilation) (L : Language Char) : Prop where
  constructed : ∀ w, compilation.constructed.Accepts w ↔ w ∈ L
  epsilonFree : ∀ w, compilation.epsilonFree.Accepts w ↔ w ∈ L
  determinized : ∀ w, compilation.determinized.automaton.Accepts w ↔ w ∈ L
  result : ∀ w, compilation.result.Accepts w ↔ w ∈ L

namespace Automaton

variable {A : Automaton} {characters : Alphabet} {w : List Char}

/-- The vertices of a subset automaton leave an identifier for a sink. -/
theorem toNat_greatestVertex_determinize_lt
    (hfew : A.determinize.subsets.length < UInt32.size) :
    A.determinize.automaton.greatestVertex.toNat + 1 < UInt32.size := by
  have hgreatest := contains_greatestVertex (wellFormed_determinize hfew).contains_start
  have hlt := (contains_determinize hfew).1 hgreatest
  omega

/-- A sink does not change the language. -/
theorem accepts_withSink_iff (hA : A.WellFormed) (hfits : A.greatestVertex.toNat + 1 < UInt32.size) :
    (A.withSink characters).Accepts w ↔ A.Accepts w := by
  rw [Accepts, start_withSink, acceptsFrom_withSink_iff hA hfits hA.contains_start, Accepts]

end Automaton

namespace Compiler

variable {C : Compiler} {e : Expression} {N : Automaton}

/-- What the last stage makes of a subset automaton. -/
def finalize (C : Compiler) (D : SubsetAutomaton) : Option Vertex × Automaton :=
  if D.automaton.missingMoves (C.completionAlphabet D) = [] then (none, D.automaton)
  else (some (D.automaton.greatestVertex + 1), D.automaton.withSink (C.completionAlphabet D))

/-- Once the construction has succeeded, only the sink may lack an identifier. -/
theorem run_eq_ok (hN : e.toAutomaton = .ok N)
    (hfew : N.eliminateEpsilon.determinize.subsets.length < UInt32.size) :
    C.run e = .ok
      { constructed := N
        epsilonFree := N.eliminateEpsilon
        determinized := N.eliminateEpsilon.determinize
        completed :=
          if C.completes then some (C.finalize N.eliminateEpsilon.determinize).2 else none
        sink := if C.completes then (C.finalize N.eliminateEpsilon.determinize).1 else none } := by
  have hfits := Automaton.toNat_greatestVertex_determinize_lt hfew
  rw [run, hN]
  cases hcompletes : C.completes with
  | false => simp [bind, Except.bind, pure, Except.pure]
  | true =>
    simp [Automaton.totalizeOver_eq_ok hfits, finalize, bind, Except.bind, pure, Except.pure]

/-- The last stage keeps the language of the subset automaton. -/
theorem accepts_finalize_iff {D : SubsetAutomaton} (hD : D.automaton.WellFormed)
    (hfits : D.automaton.greatestVertex.toNat + 1 < UInt32.size) {w : List Char} :
    (C.finalize D).2.Accepts w ↔ D.automaton.Accepts w := by
  rw [finalize]
  split
  · exact Iff.rfl
  · exact Automaton.accepts_withSink_iff hD hfits

/-- The stages of a compilation all accept what the construction accepts. -/
theorem exists_run_recognizes (C : Compiler) (e : Expression)
    (hsize : e.vertexCount ≤ UInt32.size)
    (hfew : ∀ N, e.toAutomaton = .ok N →
      N.eliminateEpsilon.determinize.subsets.length < UInt32.size) :
    ∃ compilation, C.run e = .ok compilation ∧ compilation.Recognizes e.language := by
  obtain ⟨N, hN, hrealizes⟩ := e.toAutomaton_realizes hsize
  have hfew := hfew N hN
  have hfits := Automaton.toNat_greatestVertex_determinize_lt hfew
  have hfree := hrealizes.wellFormed.eliminateEpsilon
  have hconstructed (w : List Char) : N.Accepts w ↔ w ∈ e.language :=
    Expression.accepts_toAutomaton_iff hrealizes
  have hepsilonFree (w : List Char) : N.eliminateEpsilon.Accepts w ↔ w ∈ e.language :=
    Automaton.accepts_eliminateEpsilon_iff.trans (hconstructed w)
  have hdeterminized (w : List Char) :
      N.eliminateEpsilon.determinize.automaton.Accepts w ↔ w ∈ e.language :=
    (Automaton.accepts_determinize_iff hfew hfree).trans (hepsilonFree w)
  refine ⟨_, run_eq_ok hN hfew, hconstructed, hepsilonFree, hdeterminized, fun w => ?_⟩
  rw [Compilation.result]
  cases C.completes with
  | false => exact hdeterminized w
  | true =>
    exact (accepts_finalize_iff (Automaton.wellFormed_determinize hfew) hfits).trans
      (hdeterminized w)

/-- While the identifiers last, compilation succeeds in every configuration and all stages recognize
the language of the expression; so does the automaton that it is compiled to by default. -/
theorem run_recognizes (C : Compiler) (e : Expression) (hsize : e.vertexCount ≤ UInt32.size)
    (hfew : ∀ N, e.toAutomaton = .ok N →
      N.eliminateEpsilon.determinize.subsets.length < UInt32.size) :
    (∃ compilation, C.run e = .ok compilation ∧ compilation.Recognizes e.language) ∧
      ∃ D, e.compile = .ok D ∧ ∀ w, D.Accepts w ↔ w ∈ e.language := by
  obtain ⟨compilation, hrun, hrecognizes⟩ := exists_run_recognizes {} e hsize hfew
  refine ⟨exists_run_recognizes C e hsize hfew, compilation.result, ?_, hrecognizes.result⟩
  simp [Expression.compile, hrun, bind, Except.bind, pure, Except.pure]

/-- Any number of words `a` and `ab`, so that a word has to be cut at the right places. -/
def ambiguousCuts : Expression :=
  .star (.alt (.char 'a') (.seq (.char 'a') (.char 'b')))

/-- The subset construction finds three sets: at the start, after the first letter of a word, and
after the second. -/
theorem length_subsets_ambiguousCuts (hN : ambiguousCuts.toAutomaton = .ok N) :
    N.eliminateEpsilon.determinize.subsets.length = 3 := by
  have hcheck : ambiguousCuts.toAutomaton.toOption.all
      (·.eliminateEpsilon.determinize.subsets.length == 3) = true := by
    cbv
  rw [hN] at hcheck
  simpa [Except.toOption] using hcheck

/-- All stages recognize the words cut ambiguously, also with a character more than they use. -/
theorem run_recognizes_ambiguousCuts :
    ambiguousCuts.vertexCount ≤ UInt32.size ∧
      (∀ N, ambiguousCuts.toAutomaton = .ok N →
        N.eliminateEpsilon.determinize.subsets.length < UInt32.size) ∧
      (∃ compilation, (Compiler.reading {} ['c']).run ambiguousCuts = .ok compilation ∧
        compilation.Recognizes ambiguousCuts.language) ∧
      ∃ D, ambiguousCuts.compile = .ok D ∧ ∀ w, D.Accepts w ↔ w ∈ ambiguousCuts.language := by
  have hsize : ambiguousCuts.vertexCount ≤ UInt32.size := by decide
  have hfew : ∀ N, ambiguousCuts.toAutomaton = .ok N →
      N.eliminateEpsilon.determinize.subsets.length < UInt32.size := by
    intro N hN
    rw [length_subsets_ambiguousCuts hN]
    decide
  exact ⟨hsize, hfew, run_recognizes (Compiler.reading {} ['c']) ambiguousCuts hsize hfew⟩

end Compiler

end Recognizer
