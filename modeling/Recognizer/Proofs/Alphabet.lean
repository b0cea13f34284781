import Recognizer.Proofs.BlueprintShape
import Recognizer.Proofs.Completion
import Recognizer.Proofs.Construction
import Recognizer.Proofs.Determinization
import Recognizer.Proofs.Elimination
import Recognizer.Proofs.Totality

/-!
# The characters that the stages use

The alphabet of a well-formed automaton holds the characters of its transitions
(`WellFormed.mem_alphabet_iff`). The construction takes its characters from the expression,
elimination keeps the alphabet, the subset construction adds nothing to it, and completion adds the
characters that it completes over.
-/

namespace Recognizer

open Std

namespace Automaton

variable {A : Automaton} {characters : Alphabet} {c : Char}

/-- The characters of the alphabet are those with an entry. -/
theorem mem_alphabet_iff_hasEntry : c ∈ A.alphabet ↔ ∃ q, A.hasEntry q (some c) = true := by
  simp only [alphabet, ExtTreeSet.mem_ofList, List.contains_eq_mem, decide_eq_true_eq,
    List.mem_flatMap, List.mem_filterMap, id_eq, exists_eq_right, mem_tables, hasEntry,
    ExtTreeMap.mem_keys, ExtTreeMap.contains_iff_mem]
  constructor
  · rintro ⟨out, ⟨q, hout⟩, hc⟩
    exact ⟨q, by rwa [hout, Option.getD_some]⟩
  · rintro ⟨q, hc⟩
    cases hout : A.outgoing[q]? with
    | none => simp [hout] at hc
    | some out =>
      rw [hout, Option.getD_some] at hc
      exact ⟨out, ⟨q, hout⟩, hc⟩

/-- The characters of the alphabet are those of the transitions. -/
theorem WellFormed.mem_alphabet_iff (hA : A.WellFormed) :
    c ∈ A.alphabet ↔ ∃ q r, r ∈ A.successors q (some c) := by
  simp only [mem_alphabet_iff_hasEntry, hA.hasEntry_iff]

/-- Elimination keeps the alphabet. -/
theorem WellFormed.alphabet_eliminateEpsilon (hA : A.WellFormed) :
    A.eliminateEpsilon.alphabet = A.alphabet := by
  refine ExtTreeSet.ext_mem fun c => ?_
  rw [hA.eliminateEpsilon.mem_alphabet_iff, hA.mem_alphabet_iff]
  constructor
  · rintro ⟨q, r, hr⟩
    obtain ⟨m, _, hr⟩ := mem_successors_eliminateEpsilon.1 hr
    exact ⟨m, r, hr⟩
  · rintro ⟨q, r, hr⟩
    exact ⟨q, r, mem_successors_eliminateEpsilon.2 ⟨q, .refl, hr⟩⟩

/-- The subset construction uses characters of its source only. -/
theorem mem_alphabet_of_determinize (hfew : A.determinize.subsets.length < UInt32.size)
    (h : c ∈ A.determinize.automaton.alphabet) : c ∈ A.alphabet := by
  obtain ⟨q, r, hr⟩ := (wellFormed_determinize hfew).mem_alphabet_iff.1 h
  obtain ⟨states, next, d, hd, _, hmove, _⟩ := (mem_successors_determinize hfew).1 hr
  cases hd
  obtain ⟨p, _, hentry⟩ := exists_hasEntry_of_getElem?_moves hmove
  exact mem_alphabet_iff_hasEntry.2 ⟨p, hentry⟩

/-- With the sink come the characters that it loops on. -/
theorem WellFormed.mem_alphabet_withSink (hA : A.WellFormed) :
    c ∈ (A.withSink characters).alphabet ↔ c ∈ A.alphabet ∨ c ∈ characters := by
  rw [(hA.withSink characters).mem_alphabet_iff, hA.mem_alphabet_iff]
  simp only [mem_successors_withSink]
  constructor
  · rintro ⟨q, r, hold | ⟨_, d, hd, hcd, _⟩⟩
    · exact Or.inl ⟨q, r, hold⟩
    · cases hcd
      exact Or.inr hd
  · rintro (⟨q, r, hold⟩ | hc)
    · exact ⟨q, r, Or.inl hold⟩
    · exact ⟨_, _, Or.inr ⟨rfl, c, hc, rfl, Or.inl rfl⟩⟩

/-- The construction uses characters of the expression only. -/
theorem Realizes.some_mem_symbols {e : Expression}
    (hA : A.Realizes e.vertexCount [e.exit] e.steps) (h : c ∈ A.alphabet) :
    some c ∈ e.symbols := by
  obtain ⟨q, r, hr⟩ := hA.wellFormed.mem_alphabet_iff.1 h
  have hstep := (hA.mem_successors_iff _ _ _).1 hr
  exact Expression.forall_mem_steps (P := fun s => s ≠ none → s ∈ e.symbols)
    (fun hnone => absurd rfl hnone) (fun _ hs _ => hs) _ hstep (Option.some_ne_none c)

end Automaton

end Recognizer
