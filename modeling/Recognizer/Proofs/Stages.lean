import Recognizer.Proofs.Alphabet
import Recognizer.Proofs.Compilation
import Recognizer.Proofs.ConstructionLimit
import Recognizer.Proofs.Preservation
import Recognizer.Proofs.Productivity

/-!
# What the stages of a compilation are

A successful compilation is taken apart into its stages, each given by the one before
(`Compiler.run_follows`). While the identifiers last, the last stage is the deterministic automaton
itself or that automaton with a sink (`Compilation.Follows.result_cases`).

In a constructed automaton every vertex is on the way from the start to the finish, and no later
stage loses this but for the sink. So the deterministic automaton has neither unreachable nor dead
vertices, and the sink is the only dead vertex of the result (`Compiler.dead_iff_sink_of_run`).
-/

namespace Recognizer

/-- The automata of a compilation, one for each stage that was run. -/
def Compilation.stages (compilation : Compilation) : List Automaton :=
  [compilation.constructed, compilation.epsilonFree, compilation.determinized.automaton] ++
    compilation.completed.toList

/-- The result is that of the last stage. -/
theorem Compilation.result_mem_stages {compilation : Compilation} :
    compilation.result ∈ compilation.stages := by
  rw [result, stages]
  cases compilation.completed <;> simp

/-- What every stage of a compilation has. -/
theorem Compilation.forall_mem_stages {compilation : Compilation} {P : Automaton → Prop} :
    (∀ A ∈ compilation.stages, P A) ↔
      P compilation.constructed ∧ P compilation.epsilonFree ∧
        P compilation.determinized.automaton ∧ P compilation.result := by
  rw [result, stages]
  cases compilation.completed <;> simp

/-- Every stage of a compilation is made from the one before. -/
structure Compilation.Follows (compilation : Compilation) (C : Compiler) (e : Expression) :
    Prop where
  toAutomaton_eq : e.toAutomaton = .ok compilation.constructed
  epsilonFree_eq : compilation.epsilonFree = compilation.constructed.eliminateEpsilon
  determinized_eq : compilation.determinized = compilation.epsilonFree.determinize
  /-- The last stage is completion, if it is run. -/
  totalizeOver_eq : C.completes = true → ∃ B, compilation.completed = some B ∧
    compilation.determinized.automaton.totalizeOver
      (C.completionAlphabet compilation.determinized) = .ok (compilation.sink, B)
  completed_eq_none : C.completes = false → compilation.completed = none ∧ compilation.sink = none

/-- A successful compilation consists of stages made from one another. -/
theorem Compiler.run_follows (C : Compiler) (e : Expression) :
    Ensures (C.run e) fun compilation => compilation.Follows C e := by
  rw [run]
  refine Ensures.self.bind fun N hN => ?_
  cases hcompletes : C.completes with
  | true =>
    refine Ensures.self.bind fun result hresult => Ensures.ok ?_
    exact ⟨hN, rfl, rfl, fun _ => ⟨result.2, rfl, hresult⟩, fun h => by simp [hcompletes] at h⟩
  | false =>
    exact Ensures.ok ⟨hN, rfl, rfl, fun h => by simp [hcompletes] at h, fun _ => ⟨rfl, rfl⟩⟩

namespace Automaton.Realizes

variable {e : Expression} {A : Automaton}

/-- A constructed automaton is productive. -/
theorem productive (hA : A.Realizes e.vertexCount [e.exit] e.steps) : A.Productive := by
  intro q hq
  obtain ⟨finish, _, hfinish⟩ := hA.uniqueFinish
  obtain ⟨w, hpath⟩ := hA.exists_path_to_exit hq hfinish
  have hfinal : A.isFinish finish = true := by
    rw [hA.isFinish_iff, hfinish, List.mem_singleton]
  exact ⟨w, finish, hfinal, hpath⟩

end Automaton.Realizes

namespace Compilation.Follows

variable {compilation : Compilation} {C : Compiler} {e : Expression}

/-- The first stage realizes the blueprint of the expression. -/
theorem realizes (h : compilation.Follows C e) :
    compilation.constructed.Realizes e.vertexCount [e.exit] e.steps :=
  Expression.realizes_of_toAutomaton_eq_ok h.toAutomaton_eq

/-- The second stage is well-formed. -/
theorem wellFormed_epsilonFree (h : compilation.Follows C e) :
    compilation.epsilonFree.WellFormed := by
  rw [h.epsilonFree_eq]
  exact h.realizes.wellFormed.eliminateEpsilon

/-- All vertices of the second stage are productive. -/
theorem productive_epsilonFree (h : compilation.Follows C e) :
    compilation.epsilonFree.Productive := by
  rw [h.epsilonFree_eq]
  exact h.realizes.productive.eliminateEpsilon

section Bounded

variable (hfew : compilation.determinized.subsets.length < UInt32.size)
include hfew

/-- The third stage is well-formed. -/
theorem wellFormed_determinized (h : compilation.Follows C e) :
    compilation.determinized.automaton.WellFormed := by
  rw [h.determinized_eq] at hfew ⊢
  exact Automaton.wellFormed_determinize hfew

/-- All vertices of the third stage are productive. -/
theorem productive_determinized (h : compilation.Follows C e) :
    compilation.determinized.automaton.Productive := by
  rw [h.determinized_eq] at hfew ⊢
  exact h.productive_epsilonFree.determinize hfew h.wellFormed_epsilonFree

/-- There is an identifier for a sink. -/
theorem toNat_greatestVertex_lt (h : compilation.Follows C e) :
    compilation.determinized.automaton.greatestVertex.toNat + 1 < UInt32.size := by
  rw [h.determinized_eq] at hfew ⊢
  exact Automaton.toNat_greatestVertex_determinize_lt hfew

/-- The result is the deterministic automaton, or it has a sink for moves that are missing there. -/
theorem result_cases (h : compilation.Follows C e) :
    (compilation.sink = none ∧ compilation.result = compilation.determinized.automaton) ∨
      compilation.sink = some (compilation.determinized.automaton.greatestVertex + 1) ∧
        compilation.result = compilation.determinized.automaton.withSink
          (C.completionAlphabet compilation.determinized) ∧
        compilation.determinized.automaton.missingMoves
          (C.completionAlphabet compilation.determinized) ≠ [] := by
  cases hcompletes : C.completes with
  | false =>
    obtain ⟨hcompleted, hsink⟩ := h.completed_eq_none hcompletes
    exact Or.inl ⟨hsink, by rw [result, hcompleted, Option.getD_none]⟩
  | true =>
    obtain ⟨B, hcompleted, htotal⟩ := h.totalizeOver_eq hcompletes
    rw [Automaton.totalizeOver_eq_ok (h.toNat_greatestVertex_lt hfew), Except.ok.injEq] at htotal
    rw [result, hcompleted, Option.getD_some]
    split at htotal
    · obtain ⟨hsink, hB⟩ := Prod.mk.injEq _ _ _ _ ▸ htotal
      exact Or.inl ⟨hsink.symm, hB.symm⟩
    · next hmissing =>
      obtain ⟨hsink, hB⟩ := Prod.mk.injEq _ _ _ _ ▸ htotal
      exact Or.inr ⟨hsink.symm, hB.symm, hmissing⟩

/-- The result is well-formed. -/
theorem wellFormed_result (h : compilation.Follows C e) : compilation.result.WellFormed := by
  have hwell := h.wellFormed_determinized hfew
  rcases h.result_cases hfew with ⟨_, hresult⟩ | ⟨_, hresult, _⟩
  · exact hresult ▸ hwell
  · exact hresult ▸ hwell.withSink _

/-- All stages are well-formed. -/
theorem wellFormed_stages (h : compilation.Follows C e) :
    ∀ A ∈ compilation.stages, A.WellFormed :=
  Compilation.forall_mem_stages.2 ⟨h.realizes.wellFormed, h.wellFormed_epsilonFree,
    h.wellFormed_determinized hfew, h.wellFormed_result hfew⟩

end Bounded

/-! ### Characters -/

variable {c : Char}

/-- Up to the deterministic automaton, the stages use characters of the expression only. -/
theorem some_mem_symbols_of_epsilonFree (h : compilation.Follows C e)
    (hc : c ∈ compilation.epsilonFree.alphabet) : some c ∈ e.symbols := by
  rw [h.epsilonFree_eq, h.realizes.wellFormed.alphabet_eliminateEpsilon] at hc
  exact h.realizes.some_mem_symbols hc

/-- The characters of the third stage are symbols of the expression. -/
theorem some_mem_symbols_of_determinized (h : compilation.Follows C e)
    (hfew : compilation.determinized.subsets.length < UInt32.size)
    (hc : c ∈ compilation.determinized.automaton.alphabet) : some c ∈ e.symbols := by
  rw [h.determinized_eq] at hfew hc
  exact h.some_mem_symbols_of_epsilonFree (Automaton.mem_alphabet_of_determinize hfew hc)

/-- Completion adds characters of the configured alphabet only. -/
theorem mem_symbols_or_of_stages (h : compilation.Follows C e)
    (hfew : compilation.determinized.subsets.length < UInt32.size) :
    ∀ A ∈ compilation.stages, ∀ c ∈ A.alphabet, some c ∈ e.symbols ∨ c ∈ C.alphabet := by
  have hdeterminized (c : Char) := h.some_mem_symbols_of_determinized (c := c) hfew
  refine Compilation.forall_mem_stages.2 ⟨fun c hc => Or.inl (h.realizes.some_mem_symbols hc),
    fun c hc => Or.inl (h.some_mem_symbols_of_epsilonFree hc),
    fun c hc => Or.inl (hdeterminized c hc), fun c hc => ?_⟩
  rcases h.result_cases hfew with ⟨_, hresult⟩ | ⟨_, hresult, _⟩
  · exact Or.inl (hdeterminized c (hresult ▸ hc))
  · rw [hresult, (h.wellFormed_determinized hfew).mem_alphabet_withSink, Compiler.completionAlphabet,
      Std.ExtTreeSet.mem_union_iff, ← or_assoc, or_self] at hc
    exact hc.imp_left (hdeterminized c)

end Compilation.Follows

namespace Compiler

variable {C : Compiler} {e : Expression} {compilation : Compilation}

/-- In the deterministic automaton of a compilation every vertex can be reached and accepts
something. A vertex of the result accepts nothing exactly if it is the sink; without a sink there is
no such vertex. -/
theorem dead_iff_sink_of_run (h : C.run e = .ok compilation)
    (hfew : compilation.determinized.subsets.length < UInt32.size) :
    (∀ q, compilation.determinized.automaton.contains q = true →
      (∃ w, compilation.determinized.automaton.Path
        compilation.determinized.automaton.start w q) ∧
      ∃ w, compilation.determinized.automaton.AcceptsFrom q w) ∧
    ∀ q, (compilation.result.contains q = true ∧ ∀ w, ¬ compilation.result.AcceptsFrom q w) ↔
      compilation.sink = some q := by
  have hstages := C.run_follows e compilation h
  have hproductive := hstages.productive_determinized hfew
  refine ⟨fun q hq => ⟨?_, hproductive q hq⟩, fun q => ?_⟩
  · rw [hstages.determinized_eq] at hq hfew ⊢
    rw [Automaton.start_determinize]
    exact Automaton.exists_path_of_contains hfew hstages.wellFormed_epsilonFree hq
  · rcases hstages.result_cases hfew with ⟨hsink, hresult⟩ | ⟨hsink, hresult, _⟩
    · rw [hsink, hresult]
      constructor
      · rintro ⟨hq, hdead⟩
        obtain ⟨w, hw⟩ := hproductive q hq
        exact absurd hw (hdead w)
      · intro hq
        cases hq
    · have hwell := hstages.wellFormed_determinized hfew
      have hfits := hstages.toNat_greatestVertex_lt hfew
      rw [hsink, hresult, Option.some.injEq, eq_comm (b := q)]
      constructor
      · rintro ⟨hq, hdead⟩
        exact (Automaton.forall_not_acceptsFrom_withSink_iff hwell hfits hproductive hq).1 hdead
      · rintro rfl
        exact ⟨Automaton.contains_withSink.2 (Or.inl rfl),
          fun w => Automaton.not_acceptsFrom_sink hwell hfits⟩

/-- Any number of the letter `a`. -/
def letterLoop : Expression :=
  .star (.char 'a')

/-- Completed over a further letter, the letter loop needs two sets and a sink. -/
theorem exists_run_letterLoop :
    ∃ compilation, (Compiler.reading {} ['c']).run letterLoop = .ok compilation ∧
      compilation.determinized.subsets.length < UInt32.size ∧ compilation.sink = some 2 := by
  have hcheck : ((Compiler.reading {} ['c']).run letterLoop).toOption.any
      (fun compilation => compilation.sink == some 2 &&
        compilation.determinized.subsets.length == 2) = true := by
    cbv
  cases hrun : (Compiler.reading {} ['c']).run letterLoop with
  | error failure =>
    rw [hrun] at hcheck
    cases hcheck
  | ok compilation =>
    rw [hrun, Except.toOption, Option.any_some, Bool.and_eq_true, beq_iff_eq, beq_iff_eq] at hcheck
    refine ⟨compilation, rfl, ?_, hcheck.1⟩
    rw [hcheck.2]
    decide

/-- The sink of the letter loop is its dead vertex. -/
theorem dead_iff_sink_letterLoop :
    ∃ compilation, (Compiler.reading {} ['c']).run letterLoop = .ok compilation ∧
      compilation.determinized.subsets.length < UInt32.size ∧
      compilation.result.contains 2 = true ∧ ∀ w, ¬ compilation.result.AcceptsFrom 2 w := by
  obtain ⟨compilation, hrun, hfew, hsink⟩ := exists_run_letterLoop
  exact ⟨compilation, hrun, hfew, ((dead_iff_sink_of_run hrun hfew).2 2).2 hsink⟩

end Compiler

end Recognizer
