import Recognizer.Automaton.Elimination
import Recognizer.Automaton.WellFormed
import Recognizer.Proofs.SilentSteps

/-!
# Elimination keeps the language of every vertex

After elimination a vertex has, on each character, the successors of all vertices that it reached by
silent steps (`mem_successors_eliminateEpsilon`), and it is a finish if it reached one
(`isFinish_eliminateEpsilon`). These two facts refer to the original automaton alone, so one
induction on words compares what is accepted from any vertex before and after.

Nothing is assumed of the automaton: vertices without entry have no silent step to begin with.
-/

namespace Recognizer

open Std

namespace Automaton

variable {A : Automaton} {p q r : Vertex} {s : Symbol} {c : Char} {w : List Char}

/-! ### Dropping silent steps -/

/-- To erase silent steps leaves the start as it is. -/
@[simp]
theorem start_eraseEpsilon : A.eraseEpsilon.start = A.start := rfl

/-- To erase silent steps leaves the finishes as they are. -/
@[simp]
theorem isFinish_eraseEpsilon : A.eraseEpsilon.isFinish q = A.isFinish q := rfl

/-- To erase silent steps leaves the vertices as they are. -/
@[simp]
theorem contains_eraseEpsilon : A.eraseEpsilon.contains q = A.contains q := by
  rw [Bool.eq_iff_iff, contains_iff_getElem?_ne_none, contains_iff_getElem?_ne_none, eraseEpsilon,
    ExtTreeMap.getElem?_map]
  simp

/-- Just the steps on characters are left. -/
@[simp]
theorem mem_successors_eraseEpsilon :
    r ∈ A.eraseEpsilon.successors q s ↔ s ≠ none ∧ r ∈ A.successors q s := by
  simp only [successors, eraseEpsilon, ExtTreeMap.getElem?_map]
  cases A.outgoing[q]? with
  | none => simp
  | some out => cases s <;> simp [ExtTreeMap.getElem?_erase]

/-- Just the entries for characters are left. -/
@[simp]
theorem hasEntry_eraseEpsilon :
    A.eraseEpsilon.hasEntry q s = true ↔ s ≠ none ∧ A.hasEntry q s = true := by
  simp only [hasEntry, eraseEpsilon, ExtTreeMap.getElem?_map]
  cases A.outgoing[q]? with
  | none => simp
  | some out => cases s <;> simp

/-! ### What is taken over -/

/-- The silent steps of a vertex that reaches another one make it a vertex of the automaton. -/
theorem SilentlyReaches.contains (h : A.SilentlyReaches q r) (hne : q ≠ r) :
    A.contains q = true := by
  cases h.cases_head with
  | inl heq => exact absurd heq hne
  | inr hstep => exact contains_of_mem_successors hstep.choose_spec.1

/-- The listed transitions from `source` are those that the table records. -/
theorem mem_outgoing_transitions {t : Transition Vertex} :
    t ∈ Outgoing.transitions (A.outgoing[r]?.getD ∅) q ↔
      t.source = q ∧ t.target ∈ A.successors r t.symbol := by
  obtain ⟨source, symbol, target⟩ := t
  simp only [Outgoing.transitions, List.mem_flatMap, List.mem_map, Prod.exists, successors,
    ExtTreeMap.mem_toList_iff_getElem?_eq_some, ExtTreeSet.mem_toList, Transition.mk.injEq]
  apply Iff.intro
  · intro h
    obtain ⟨s, targets, htargets, m, hm, rfl, rfl, rfl⟩ := h
    exact ⟨rfl, by simpa [htargets] using hm⟩
  · intro h
    obtain ⟨rfl, hm⟩ := h
    cases htargets : (A.outgoing[r]?.getD ∅)[symbol]? with
    | none => simp [htargets] at hm
    | some targets => exact ⟨symbol, targets, htargets, target, by simpa [htargets] using hm, rfl, rfl, rfl⟩

/-- A transition is copied to `q` from every other vertex that `q` reaches silently. -/
theorem mem_copiedTransitions {t : Transition Vertex} :
    t ∈ A.copiedTransitions ↔ t.symbol ≠ none ∧
      ∃ r, r ≠ t.source ∧ A.SilentlyReaches t.source r ∧ t.target ∈ A.successors r t.symbol := by
  simp only [copiedTransitions, inheritedTransitions, List.mem_flatMap, List.mem_filter,
    mem_vertices, ExtTreeSet.mem_toList, mem_closure, mem_outgoing_transitions, bne_iff_ne,
    Option.isSome_iff_ne_none]
  apply Iff.intro
  · intro h
    obtain ⟨q, _, r, ⟨hreach, hne⟩, ⟨rfl, hr⟩, hs⟩ := h
    exact ⟨hs, r, hne, hreach, hr⟩
  · intro h
    obtain ⟨hs, r, hne, hreach, hr⟩ := h
    exact ⟨t.source, hreach.contains hne.symm, r, ⟨hreach, hne⟩, ⟨rfl, hr⟩, hs⟩

/-- A new finish is no finish itself but reaches one silently. -/
theorem mem_newFinishes :
    q ∈ A.newFinishes ↔ A.contains q = true ∧ A.isFinish q = false ∧
      ∃ r, A.SilentlyReaches q r ∧ A.isFinish r = true := by
  simp only [newFinishes, List.mem_filter, mem_vertices, Bool.and_eq_true, Bool.not_eq_true',
    List.any_eq_true, ExtTreeSet.mem_toList, mem_closure]

/-! ### The eliminated automaton -/

/-- Elimination leaves the start as it is. -/
@[simp]
theorem start_eliminateEpsilon : A.eliminateEpsilon.start = A.start := by
  rw [eliminateEpsilon, start_eraseEpsilon]
  exact start_foldl_insertTransition

/-- No vertex is added or lost. -/
@[simp]
theorem contains_eliminateEpsilon : A.eliminateEpsilon.contains q = A.contains q := by
  have hcopied : ∀ t ∈ A.copiedTransitions, A.contains t.source = true := by
    intro t ht
    obtain ⟨_, r, hne, hreach, _⟩ := mem_copiedTransitions.1 ht
    exact hreach.contains hne.symm
  rw [eliminateEpsilon, contains_eraseEpsilon]
  change (A.copiedTransitions.foldl insertTransition A).contains q = A.contains q
  rw [Bool.eq_iff_iff, contains_foldl_insertTransition]
  apply Iff.intro
  · intro h
    rcases h with ⟨t, ht, rfl⟩ | h
    · exact hcopied t ht
    · exact h
  · exact Or.inr

/-- A vertex is a finish after elimination if it reached a finish silently. -/
theorem isFinish_eliminateEpsilon :
    A.eliminateEpsilon.isFinish q = true ↔ ∃ r, A.SilentlyReaches q r ∧ A.isFinish r = true := by
  have hsplit : A.eliminateEpsilon.isFinish q = true ↔ A.isFinish q = true ∨ q ∈ A.newFinishes := by
    simp [eliminateEpsilon, eraseEpsilon, isFinish]
  rw [hsplit, mem_newFinishes]
  apply Iff.intro
  · intro h
    rcases h with h | h
    · exact ⟨q, .refl, h⟩
    · exact h.2.2
  · intro h
    by_cases hq : A.isFinish q = true
    · exact Or.inl hq
    · obtain ⟨r, hreach, hr⟩ := h
      have hne : q ≠ r := fun heq => hq (heq ▸ hr)
      exact Or.inr ⟨hreach.contains hne, Bool.eq_false_iff.2 hq, r, hreach, hr⟩

/-- After elimination a vertex moves on a character as all vertices did that it reached silently. -/
theorem mem_successors_eliminateEpsilon :
    r ∈ A.eliminateEpsilon.successors q (some c) ↔
      ∃ m, A.SilentlyReaches q m ∧ r ∈ A.successors m (some c) := by
  have hsplit : r ∈ A.eliminateEpsilon.successors q (some c) ↔
      ⟨q, some c, r⟩ ∈ A.copiedTransitions ∨ r ∈ A.successors q (some c) := by
    rw [eliminateEpsilon, mem_successors_eraseEpsilon, ← mem_successors_foldl_insertTransition]
    simp only [ne_eq, reduceCtorEq, not_false_eq_true, true_and]
    rfl
  rw [hsplit, mem_copiedTransitions]
  apply Iff.intro
  · intro h
    rcases h with ⟨_, m, _, hreach, hr⟩ | h
    · exact ⟨m, hreach, hr⟩
    · exact ⟨q, .refl, h⟩
  · intro h
    obtain ⟨m, hreach, hr⟩ := h
    by_cases hm : m = q
    · exact Or.inr (hm ▸ hr)
    · exact Or.inl ⟨by simp, m, hm, hreach, hr⟩

/-- No silent step is left. -/
theorem not_mem_successors_eliminateEpsilon : r ∉ A.eliminateEpsilon.successors q none := by
  simp [eliminateEpsilon]

/-- Elimination keeps automata well-formed. -/
theorem WellFormed.eliminateEpsilon (hA : A.WellFormed) : A.eliminateEpsilon.WellFormed := by
  apply of_hasEntry
  · rw [start_eliminateEpsilon, contains_eliminateEpsilon]
    exact hA.contains_start
  · intro q hq
    obtain ⟨r, hreach, hr⟩ := isFinish_eliminateEpsilon.1 hq
    rw [contains_eliminateEpsilon]
    by_cases hne : q = r
    · exact hne ▸ hA.contains_finish r hr
    · exact hreach.contains hne
  · intro q s r hr
    rw [contains_eliminateEpsilon]
    cases s with
    | none => exact absurd hr not_mem_successors_eliminateEpsilon
    | some c =>
      obtain ⟨m, _, hr⟩ := mem_successors_eliminateEpsilon.1 hr
      exact hA.contains_target m (some c) r hr
  · intro q s hentry
    rw [Automaton.eliminateEpsilon, hasEntry_eraseEpsilon] at hentry
    obtain ⟨hs, hentry⟩ := hentry
    obtain ⟨c, rfl⟩ := Option.ne_none_iff_exists'.1 hs
    rcases hasEntry_foldl_insertTransition.1 hentry with ⟨t, ht, rfl, htc⟩ | hold
    · obtain ⟨_, m, _, hreach, hr⟩ := mem_copiedTransitions.1 ht
      rw [← htc] at hr
      exact ⟨t.target, mem_successors_eliminateEpsilon.2 ⟨m, hreach, hr⟩⟩
    · obtain ⟨r, hr⟩ := hA.hasEntry_iff.1 hold
      exact ⟨r, mem_successors_eliminateEpsilon.2 ⟨q, .refl, hr⟩⟩

/-- The words accepted from a vertex stay the same. -/
theorem acceptsFrom_eliminateEpsilon_iff :
    A.eliminateEpsilon.AcceptsFrom q w ↔ A.AcceptsFrom q w := by
  have hsilent {q r : Vertex} (h : A.eliminateEpsilon.SilentlyReaches q r) : q = r :=
    h.eq fun _ _ => not_mem_successors_eliminateEpsilon
  induction w generalizing q with
  | nil =>
    rw [acceptsFrom_nil_iff, acceptsFrom_nil_iff, ← isFinish_eliminateEpsilon (A := A)]
    apply Iff.intro
    · intro h
      obtain ⟨r, hreach, hr⟩ := h
      exact hsilent hreach ▸ hr
    · intro h
      exact ⟨q, .refl, h⟩
  | cons c w ih =>
    simp only [acceptsFrom_cons_iff, ih]
    apply Iff.intro
    · intro h
      obtain ⟨r, hreach, m, hm, haccepts⟩ := h
      obtain rfl := hsilent hreach
      obtain ⟨n, hn, hm⟩ := mem_successors_eliminateEpsilon.1 hm
      exact ⟨n, hn, m, hm, haccepts⟩
    · intro h
      obtain ⟨r, hreach, m, hm, haccepts⟩ := h
      exact ⟨q, .refl, m, mem_successors_eliminateEpsilon.2 ⟨r, hreach, hm⟩, haccepts⟩

/-- Elimination accepts the language of the source. -/
theorem accepts_eliminateEpsilon_iff : A.eliminateEpsilon.Accepts w ↔ A.Accepts w := by
  rw [Accepts, start_eliminateEpsilon, acceptsFrom_eliminateEpsilon_iff, Accepts]

/-- Elimination keeps the start, the vertices and the finishes, leaves no silent step, and accepts
the same words from every vertex as before. -/
theorem eliminateEpsilon_equivalent (A : Automaton) :
    A.eliminateEpsilon.start = A.start ∧
      (∀ q, A.eliminateEpsilon.contains q = A.contains q) ∧
      (∀ q, A.isFinish q = true → A.eliminateEpsilon.isFinish q = true) ∧
      A.eliminateEpsilon.isEpsilonFree = true ∧
      ∀ q w, A.eliminateEpsilon.AcceptsFrom q w ↔ A.AcceptsFrom q w := by
  refine ⟨start_eliminateEpsilon, fun q => contains_eliminateEpsilon, fun q hq => ?_,
    isEpsilonFree_eraseEpsilon _, fun q w => acceptsFrom_eliminateEpsilon_iff⟩
  exact isFinish_eliminateEpsilon.2 ⟨q, .refl, hq⟩

end Automaton

end Recognizer
