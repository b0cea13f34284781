import Recognizer.Proofs.Alphabet
import Recognizer.Proofs.TransitionList

/-!
# What the flags of an automaton say of its runs

The flags are read off the table, from the symbols that have an entry and from the sizes of sets.
What they are about is runs. Where there is a silent step, the empty word has two runs, and where a
symbol has two targets, so has the word of that symbol; in any other well-formed automaton a word
has at most one run from each vertex. If moreover no character is missing at any vertex, a run can
always go on, so every word has just one.

Main statement: `WellFormed.flags_iff`, which also compares the remaining questions about the table
with the list of transitions. All of this rests on there being no empty set of targets, since an
empty one would count as an entry although no run uses it.
-/

namespace Recognizer

open Std

namespace Automaton

variable {A : Automaton} {characters : Alphabet} {p q r : Vertex} {s : Symbol} {w : List Char}
variable {run run' : List (Transition Vertex)}

/-! ### Runs on a word -/

/-- The listed transitions lead on from `q`, one after the other, and spell `w`. -/
def IsRunOn (A : Automaton) (q : Vertex) (w : List Char) (run : List (Transition Vertex)) : Prop :=
  ∃ p, A.IsRun q run p ∧ spell run = w

/-- Nothing is spelled by staying. -/
theorem isRunOn_nil : A.IsRunOn q [] [] :=
  ⟨q, rfl, rfl⟩

/-- A step before a run makes a run. -/
theorem IsRunOn.cons (hr : r ∈ A.successors q s) (h : A.IsRunOn r w run) :
    A.IsRunOn q (s.toList ++ w) (⟨q, s, r⟩ :: run) := by
  obtain ⟨p, hrun, rfl⟩ := h
  exact ⟨p, ⟨rfl, mem_transitions_iff.2 hr, hrun⟩, spell_cons⟩

/-- A single transition is a run on its symbol. -/
theorem isRunOn_single (hr : r ∈ A.successors q s) : A.IsRunOn q s.toList [⟨q, s, r⟩] := by
  simpa using isRunOn_nil.cons hr

/-- The words of paths are those that have a run. -/
theorem exists_isRunOn_iff : (∃ run, A.IsRunOn q w run) ↔ ∃ p, A.Path q w p := by
  simp only [IsRunOn, path_iff_exists_run]
  exact exists_comm

/-! ### Determinism -/

/-- In a deterministic automaton a word has at most one run from a vertex. -/
theorem IsRunOn.unique (hdet : A.isDeterministic = true) (h : A.IsRunOn q w run)
    (h' : A.IsRunOn q w run') : run = run' := by
  obtain ⟨p, hrun, hspell⟩ := h
  obtain ⟨p', hrun', hspell'⟩ := h'
  exact (hrun.eq_of_isDeterministic hdet hrun' (hspell.trans hspell'.symm)).1

/-- An automaton is deterministic exactly if no word has two runs from one vertex. -/
theorem WellFormed.isDeterministic_iff_isRunOn (hA : A.WellFormed) :
    A.isDeterministic = true ↔ ∀ q, A.contains q = true → ∀ w run run',
      A.IsRunOn q w run → A.IsRunOn q w run' → run = run' := by
  constructor
  · intro hdet q _ w run run' h h'
    exact h.unique hdet h'
  · intro hunique
    rw [hA.isDeterministic_iff]
    constructor
    · -- A silent step and no step at all spell the same.
      intro q r hr
      have heq := hunique q (contains_of_mem_successors hr) [] [] _ isRunOn_nil (isRunOn_single hr)
      cases heq
    · intro q s r hr r' hr'
      have heq := hunique q (contains_of_mem_successors hr) s.toList _ _ (isRunOn_single hr)
        (isRunOn_single hr')
      simpa using heq

/-! ### Totality -/

/-- Where every vertex can read every character of an alphabet, runs on its words can always go on.
-/
theorem WellFormed.exists_isRunOn (hA : A.WellFormed)
    (hmoves : ∀ q, A.contains q = true → ∀ c ∈ characters, ∃ r, r ∈ A.successors q (some c))
    (hq : A.contains q = true) (hw : ∀ c ∈ w, c ∈ characters) : ∃ run, A.IsRunOn q w run := by
  induction w generalizing q with
  | nil => exact ⟨[], isRunOn_nil⟩
  | cons c w ih =>
    obtain ⟨r, hr⟩ := hmoves q hq c (hw c List.mem_cons_self)
    have hrest : ∀ d ∈ w, d ∈ characters := fun d hd => hw d (List.mem_cons_of_mem c hd)
    obtain ⟨run, hrun⟩ := ih (hA.contains_target q _ r hr) hrest
    exact ⟨_, hrun.cons hr⟩

/-- A deterministic automaton is total exactly if every word over the alphabet has one run from each
vertex. -/
theorem WellFormed.isTotalOver_iff_isRunOn (hA : A.WellFormed) :
    A.isTotalOver characters = true ↔ A.isDeterministic = true ∧
      ∀ q, A.contains q = true → ∀ w, (∀ c ∈ w, c ∈ characters) → ∃! run, A.IsRunOn q w run := by
  rw [isTotalOver_iff]
  refine and_congr_right fun hdet => ?_
  constructor
  · intro hmoves q hq w hw
    obtain ⟨run, hrun⟩ := hA.exists_isRunOn hmoves hq hw
    exact ⟨run, hrun, fun run' hrun' => hrun'.unique hdet hrun⟩
  · intro hone q hq c hc
    obtain ⟨p, hpath⟩ := exists_isRunOn_iff.1 (hone q hq [c] (by simpa using hc)).exists
    obtain ⟨m, hreach, r, hr, _⟩ := path_cons_iff.1 hpath
    obtain rfl := hreach.eq fun _ _ => not_mem_successors_of_isDeterministic hdet
    exact ⟨r, hr⟩

/-! ### The list of transitions -/

/-- Nothing is silent exactly if no listed transition is. -/
theorem WellFormed.isEpsilonFree_iff_transitions (hA : A.WellFormed) :
    A.isEpsilonFree = true ↔ ∀ t ∈ A.transitions, t.symbol ≠ none := by
  simp only [isEpsilonFree_iff, Bool.eq_false_iff, ne_eq, hA.hasEntry_iff, not_exists]
  constructor
  · intro hsilent t ht hnone
    rw [mem_transitions_iff, hnone] at ht
    exact hsilent _ _ ht
  · intro hlisted q r hr
    exact hlisted ⟨q, none, r⟩ (mem_transitions_iff.2 hr) rfl

/-- The alphabet holds the characters of the listed transitions. -/
theorem WellFormed.mem_alphabet_iff_transitions (hA : A.WellFormed) {c : Char} :
    c ∈ A.alphabet ↔ ∃ t ∈ A.transitions, t.symbol = some c := by
  rw [hA.mem_alphabet_iff]
  constructor
  · intro h
    obtain ⟨q, r, hr⟩ := h
    exact ⟨⟨q, some c, r⟩, mem_transitions_iff.2 hr, rfl⟩
  · intro h
    obtain ⟨t, ht, hc⟩ := h
    exact ⟨t.source, t.target, hc ▸ mem_transitions_iff.1 ht⟩

/-- A well-formed automaton counts as deterministic exactly if from every vertex every word has at
most one run, and as total over an alphabet exactly if moreover every word over the alphabet has
one. What is said of silent steps, of the alphabet and of the number of transitions is what the list
of transitions shows, and that list is strictly increasing. -/
theorem WellFormed.flags_iff (hA : A.WellFormed) :
    (A.isDeterministic = true ↔ ∀ q, A.contains q = true → ∀ w run run',
      A.IsRunOn q w run → A.IsRunOn q w run' → run = run') ∧
    (∀ characters : Alphabet, A.isTotalOver characters = true ↔ A.isDeterministic = true ∧
      ∀ q, A.contains q = true → ∀ w, (∀ c ∈ w, c ∈ characters) → ∃! run, A.IsRunOn q w run) ∧
    (A.isEpsilonFree = true ↔ ∀ t ∈ A.transitions, t.symbol ≠ none) ∧
    (∀ c, c ∈ A.alphabet ↔ ∃ t ∈ A.transitions, t.symbol = some c) ∧
    A.transitionCount = A.transitions.length ∧
    A.transitions.Pairwise fun t t' => compare t t' = .lt :=
  ⟨hA.isDeterministic_iff_isRunOn, fun _ => hA.isTotalOver_iff_isRunOn,
    hA.isEpsilonFree_iff_transitions, fun _ => hA.mem_alphabet_iff_transitions,
    A.length_transitions.symm, A.pairwise_lt_transitions⟩

/-- On the lonely step no word has two runs, but some word over its alphabet has none. -/
theorem flags_iff_lonelyStep :
    lonelyStep.WellFormed ∧
      (∀ q, lonelyStep.contains q = true → ∀ w run run',
        lonelyStep.IsRunOn q w run → lonelyStep.IsRunOn q w run' → run = run') ∧
      ¬ ∀ q, lonelyStep.contains q = true → ∀ w, (∀ c ∈ w, c ∈ lonelyStep.alphabet) →
        ∃! run, lonelyStep.IsRunOn q w run := by
  obtain ⟨hdeterministic, htotal, _⟩ := WellFormed.flags_iff wellFormed_lonelyStep
  have hdet : lonelyStep.isDeterministic = true := by decide +kernel
  have hpartial : lonelyStep.isTotalOver lonelyStep.alphabet = false := by decide +kernel
  refine ⟨wellFormed_lonelyStep, hdeterministic.1 hdet, fun hone => ?_⟩
  have hcontrary := (htotal lonelyStep.alphabet).2 ⟨hdet, hone⟩
  rw [hpartial] at hcontrary
  cases hcontrary

end Automaton

end Recognizer
