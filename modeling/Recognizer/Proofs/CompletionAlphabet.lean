import Recognizer.Proofs.ClosureAgreement
import Recognizer.Proofs.Homogeneity
import Recognizer.Proofs.Stages
import Recognizer.Proofs.Totality

/-!
# No stage loses a character

The last stage takes its characters from the deterministic automaton and not from the expression. It
finds all of them there: every atom has its step in the constructed automaton, the source of the
step is reached by some word, and a word that leads somewhere still does so after elimination and in
the subset construction (`mem_alphabet_determinize_iff`), where its last letter has to be a
transition.

A total automaton uses all characters that it is total over, since its start reads them. So the
result uses the characters of the expression and the configured ones, and no others
(`Compiler.run_alphabet`), whether a sink was needed for them or not.
-/

namespace Recognizer

open Std

namespace Automaton

variable {A N : Automaton} {e : Expression} {characters : Alphabet} {c : Char}

/-- A total automaton uses the characters that it is total over. -/
theorem WellFormed.mem_alphabet_of_isTotalOver (hA : A.WellFormed)
    (h : A.isTotalOver characters = true) (hc : c ∈ characters) : c ∈ A.alphabet := by
  obtain ⟨r, hr⟩ := (isTotalOver_iff.1 h).2 A.start hA.contains_start c hc
  exact hA.mem_alphabet_iff.2 ⟨A.start, r, hr⟩

/-- Whatever completion makes of a deterministic automaton is total. -/
theorem WellFormed.isTotalOver_of_totalizeOver {B : Automaton} {sink : Option Vertex}
    (hA : A.WellFormed) (hdet : A.isDeterministic = true)
    (h : A.totalizeOver characters = .ok (sink, B)) : B.isTotalOver characters = true := by
  rw [totalizeOver_of_isDeterministic hA hdet] at h
  split at h
  · next htotal =>
    cases h
    exact htotal
  · split at h
    · next hlast =>
      cases h
      exact isTotalOver_withSink (add_one_lt_size_iff.2 hlast) hA hdet
    · cases h

/-- The subset construction uses the last characters of the words that lead somewhere. -/
theorem WellFormed.mem_alphabet_determinize_iff (hA : A.WellFormed)
    (hfew : A.determinize.subsets.length < UInt32.size) :
    c ∈ A.determinize.automaton.alphabet ↔ ∃ w q, A.Path A.start (w ++ [c]) q := by
  rw [(wellFormed_determinize hfew).mem_alphabet_iff]
  simp only [← exists_path_determinize_iff hA hfew, start_determinize,
    path_concat_determinize_iff hfew]
  constructor
  · intro h
    obtain ⟨i, j, hj⟩ := h
    obtain ⟨w, hi⟩ := exists_path_of_contains hfew hA (contains_of_mem_successors hj)
    exact ⟨w, j, i, hi, hj⟩
  · intro h
    obtain ⟨_, j, i, _, hj⟩ := h
    exact ⟨i, j, hj⟩

namespace Realizes

variable (hN : N.Realizes e.vertexCount [e.exit] e.steps)
include hN

/-- The construction uses the characters of the expression. -/
theorem mem_alphabet_iff : c ∈ N.alphabet ↔ c ∈ e.characters := by
  constructor
  · intro h
    exact Expression.mem_characters.2 (hN.some_mem_symbols h)
  · intro h
    obtain ⟨m, n, hstep⟩ := Expression.exists_step_of_mem_characters h
    obtain ⟨hm, hn⟩ := Expression.lt_of_mem_steps hstep
    obtain ⟨q, rfl⟩ := exists_toNat_eq (Nat.lt_of_lt_of_le hm hN.size_le)
    obtain ⟨r, rfl⟩ := exists_toNat_eq (Nat.lt_of_lt_of_le hn hN.size_le)
    exact hN.wellFormed.mem_alphabet_iff.2 ⟨q, r, (hN.mem_successors_iff _ _ _).2 hstep⟩

/-- A constructed automaton uses the last characters of the words that lead somewhere. -/
theorem mem_alphabet_iff_exists_path : c ∈ N.alphabet ↔ ∃ w q, N.Path N.start (w ++ [c]) q := by
  rw [hN.wellFormed.mem_alphabet_iff]
  simp only [path_concat_iff]
  constructor
  · intro h
    obtain ⟨q, r, hr⟩ := h
    obtain ⟨w, hq⟩ := hN.exists_path_from_start (contains_of_mem_successors hr)
    exact ⟨w, r, q, hq, r, hr, .refl⟩
  · intro h
    obtain ⟨_, _, q, _, r, hr, _⟩ := h
    exact ⟨q, r, hr⟩

end Realizes

end Automaton

namespace Compilation.Follows

variable {C : Compiler} {e : Expression} {compilation : Compilation} {c : Char}
variable (h : compilation.Follows C e)
include h

/-- Before elimination and after it, the characters are those of the expression. -/
theorem mem_alphabet_constructed : c ∈ compilation.constructed.alphabet ↔ c ∈ e.characters :=
  h.realizes.mem_alphabet_iff

/-- Elimination keeps just the characters of the expression. -/
theorem mem_alphabet_epsilonFree : c ∈ compilation.epsilonFree.alphabet ↔ c ∈ e.characters := by
  rw [h.epsilonFree_eq, h.realizes.wellFormed.alphabet_eliminateEpsilon,
    h.mem_alphabet_constructed]

section Bounded

variable (hfew : compilation.determinized.subsets.length < UInt32.size)
include hfew

/-- The deterministic automaton has not lost any of them. -/
theorem mem_alphabet_determinized :
    c ∈ compilation.determinized.automaton.alphabet ↔ c ∈ e.characters := by
  have hfree := h.wellFormed_epsilonFree
  rw [h.determinized_eq] at hfew ⊢
  rw [hfree.mem_alphabet_determinize_iff hfew, ← h.mem_alphabet_constructed,
    h.realizes.mem_alphabet_iff_exists_path, h.epsilonFree_eq]
  exact exists_congr fun _ => Automaton.exists_path_eliminateEpsilon_iff

/-- The subset construction of a run is deterministic. -/
theorem isDeterministic_determinized :
    compilation.determinized.automaton.isDeterministic = true := by
  rw [h.determinized_eq] at hfew ⊢
  exact Automaton.isDeterministic_determinize hfew

section Completed

variable (hcompletes : C.completes = true)
include hcompletes

/-- Completion makes the result total over what it completes over. -/
theorem isTotalOver_result :
    compilation.result.isTotalOver (C.completionAlphabet compilation.determinized) = true := by
  obtain ⟨B, hcompleted, htotal⟩ := h.totalizeOver_eq hcompletes
  rw [Compilation.result, hcompleted, Option.getD_some]
  exact (h.wellFormed_determinized hfew).isTotalOver_of_totalizeOver
    (h.isDeterministic_determinized hfew) htotal

/-- The result uses exactly what it was completed over. -/
theorem alphabet_result :
    compilation.result.alphabet = C.completionAlphabet compilation.determinized := by
  refine Std.ExtTreeSet.ext_mem fun c => ⟨fun hc => ?_, fun hc => ?_⟩
  · rcases h.result_cases hfew with ⟨_, hresult⟩ | ⟨_, hresult, _⟩
    · exact Std.ExtTreeSet.mem_union_iff.2 (Or.inl (hresult ▸ hc))
    · rw [hresult, (h.wellFormed_determinized hfew).mem_alphabet_withSink] at hc
      exact hc.elim (fun hold => Std.ExtTreeSet.mem_union_iff.2 (Or.inl hold)) id
  · exact (h.wellFormed_result hfew).mem_alphabet_of_isTotalOver
      (h.isTotalOver_result hfew hcompletes) hc

end Completed

end Bounded

end Compilation.Follows

namespace Compiler

variable {C : Compiler} {e : Expression} {compilation : Compilation} {c : Char}
variable {settings : List Setting}

/-- Settings add the characters that they are given, in whatever order they are made. -/
theorem mem_alphabet_foldl_set :
    c ∈ (settings.foldl set C).alphabet ↔
      c ∈ C.alphabet ∨ ∃ characters, .reading characters ∈ settings ∧ c ∈ characters := by
  induction settings generalizing C with
  | nil => simp
  | cons setting rest ih =>
    rw [List.foldl_cons, ih]
    cases setting with
    | reading characters =>
      simp [set, reading, Std.ExtTreeSet.mem_insertMany_list, or_assoc, or_and_right, exists_or]
    | completing completes => simp [set, completing]

/-- However a compiler is configured, the automata up to the deterministic one use exactly the
characters of the expression. If the last stage is run, its result uses these and all characters of
the settings, and it is total over them. -/
theorem run_alphabet (settings : List Setting) (e : Expression)
    (h : (settings.foldl set {}).run e = .ok compilation)
    (hfew : compilation.determinized.subsets.length < UInt32.size) :
    (∀ c, c ∈ compilation.constructed.alphabet ↔ c ∈ e.characters) ∧
      (∀ c, c ∈ compilation.epsilonFree.alphabet ↔ c ∈ e.characters) ∧
      (∀ c, c ∈ compilation.determinized.automaton.alphabet ↔ c ∈ e.characters) ∧
      ((settings.foldl set {}).completes = true →
        (∀ c, c ∈ compilation.result.alphabet ↔ c ∈ e.characters ∨
          ∃ characters, .reading characters ∈ settings ∧ c ∈ characters) ∧
        compilation.result.isTotalOver compilation.result.alphabet = true) := by
  have hstages := run_follows _ e compilation h
  refine ⟨fun c => hstages.mem_alphabet_constructed, fun c => hstages.mem_alphabet_epsilonFree,
    fun c => hstages.mem_alphabet_determinized hfew, fun hcompletes => ?_⟩
  rw [hstages.alphabet_result hfew hcompletes]
  refine ⟨fun c => ?_, hstages.isTotalOver_result hfew hcompletes⟩
  rw [completionAlphabet, Std.ExtTreeSet.mem_union_iff, hstages.mem_alphabet_determinized hfew,
    mem_alphabet_foldl_set]
  simp

/-- Completed over letters that come in two settings, the last letter but one is told from them. -/
theorem run_alphabet_lastButOne :
    ∃ compilation,
      ([.reading ['c'], .completing true, .reading ['d', 'a']].foldl set {}).run lastButOne =
        .ok compilation ∧
      compilation.determinized.subsets.length < UInt32.size ∧
      'b' ∈ compilation.determinized.automaton.alphabet ∧
      'd' ∉ compilation.determinized.automaton.alphabet ∧
      'd' ∈ compilation.result.alphabet ∧
      compilation.result.isTotalOver compilation.result.alphabet = true := by
  obtain ⟨compilation, hrun, hfew⟩ := exists_run_of_few_atoms
    ([.reading ['c'], .completing true, .reading ['d', 'a']].foldl set {}) (e := lastButOne)
    (by decide) (by decide)
  obtain ⟨_, _, hdeterminized, hcompleted⟩ := run_alphabet _ _ hrun hfew
  obtain ⟨hresult, htotal⟩ := hcompleted rfl
  exact ⟨compilation, hrun, hfew, (hdeterminized 'b').2 (by decide),
    fun hd => absurd ((hdeterminized 'd').1 hd) (by decide),
    (hresult 'd').2 (Or.inr ⟨['d', 'a'], by simp, by decide⟩), htotal⟩

end Compiler

end Recognizer
