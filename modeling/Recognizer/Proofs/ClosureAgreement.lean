import Mathlib.Data.List.Perm.Subperm
import Recognizer.Proofs.Determinization
import Recognizer.Proofs.Elimination
import Recognizer.Proofs.TransitionList

/-!
# Silent steps may be eliminated before or closed on the way

There are two ways from an automaton with silent steps to a deterministic one: the subset
construction can close every set under silent steps, or silent steps are eliminated first. A path is
one of the eliminated automaton followed by silent steps (`path_iff_eliminateEpsilon`), so on every
word the sets of the first way are the closures of the sets of the second.

Distinct sets may have the same closure, while every set of the first way is some closure. That is
why the first way never finds more sets (`length_reachableSubsets_le`). No bound on their number is
needed for this, hence one for the second way is enough.
-/

namespace Recognizer

open Std

/-- Both automata read the same words, and what a vertex of `D` stands for is what silent steps of
`A` reach from what stands for the same words in `F`. -/
structure SubsetAutomaton.ClosesUp (D F : SubsetAutomaton) (A : Automaton) : Prop where
  /-- There is a run on a word in both or in neither. -/
  exists_path_iff : ∀ w, (∃ i, D.automaton.Path D.automaton.start w i) ↔
    ∃ j, F.automaton.Path F.automaton.start w j
  /-- On a word the first leads to the closure of the set that the second leads to. -/
  subset_eq : ∀ w i j, D.automaton.Path D.automaton.start w i →
    F.automaton.Path F.automaton.start w j →
    ∃ states, F.subset j = some states ∧ D.subset i = some (A.closureFrom states.toList)
  /-- Both lead to a finish or neither does. -/
  isFinish_eq : ∀ w i j, D.automaton.Path D.automaton.start w i →
    F.automaton.Path F.automaton.start w j → D.automaton.isFinish i = F.automaton.isFinish j
  /-- The first does not have more vertices. -/
  size_le : D.automaton.size ≤ F.automaton.size
  /-- Both accept the same words. -/
  accepts_iff : ∀ w, D.automaton.Accepts w ↔ F.automaton.Accepts w

namespace Automaton

variable {A : Automaton} {i j p q : Vertex} {w : List Char} {states : VertexSet}

/-! ### Paths and sets -/

/-- Without silent steps, a path on nothing stays where it is. -/
theorem path_nil_eliminateEpsilon_iff : A.eliminateEpsilon.Path q [] p ↔ q = p := by
  rw [path_nil_iff]
  constructor
  · intro h
    exact h.eq fun _ _ => not_mem_successors_eliminateEpsilon
  · rintro rfl
    exact .refl

/-- After elimination a path takes the silent steps before a letter together with it. -/
theorem path_cons_eliminateEpsilon_iff {c : Char} :
    A.eliminateEpsilon.Path q (c :: w) p ↔
      ∃ r, A.SilentlyReaches q r ∧ ∃ m ∈ A.successors r (some c), A.eliminateEpsilon.Path m w p := by
  rw [path_cons_iff]
  constructor
  · rintro ⟨r, hreach, m, hm, hpath⟩
    obtain rfl := hreach.eq fun _ _ => not_mem_successors_eliminateEpsilon
    obtain ⟨n, hn, hm⟩ := mem_successors_eliminateEpsilon.1 hm
    exact ⟨n, hn, m, hm, hpath⟩
  · rintro ⟨r, hreach, m, hm, hpath⟩
    exact ⟨q, .refl, m, mem_successors_eliminateEpsilon.2 ⟨r, hreach, hm⟩, hpath⟩

/-- A path is a path of the eliminated automaton followed by silent steps. -/
theorem path_iff_eliminateEpsilon :
    A.Path q w p ↔ ∃ r, A.eliminateEpsilon.Path q w r ∧ A.SilentlyReaches r p := by
  induction w generalizing q with
  | nil =>
    rw [path_nil_iff]
    simp only [path_nil_eliminateEpsilon_iff, exists_eq_left']
  | cons c w ih =>
    rw [path_cons_iff]
    simp only [path_cons_eliminateEpsilon_iff, ih]
    constructor
    · rintro ⟨r, hreach, m, hm, n, hpath, hn⟩
      exact ⟨n, ⟨r, hreach, m, hm, hpath⟩, hn⟩
    · rintro ⟨n, ⟨r, hreach, m, hm, hpath⟩, hn⟩
      exact ⟨r, hreach, m, hm, n, hpath, hn⟩

/-- The closure of the set read after elimination is the set read before. -/
theorem ReadBy.closureFrom (h : A.eliminateEpsilon.ReadBy w states) :
    A.ReadBy w (A.closureFrom states.toList) := by
  intro q
  simp only [mem_closureFrom, ExtTreeSet.mem_toList, h _, start_eliminateEpsilon]
  exact path_iff_eliminateEpsilon.symm

/-- A set is empty exactly if its closure is. -/
theorem closureFrom_eq_empty_iff : A.closureFrom states.toList = ∅ ↔ states = ∅ := by
  simp only [ExtTreeSet.eq_empty_iff_forall_not_mem, mem_closureFrom, ExtTreeSet.mem_toList]
  constructor
  · intro h q hq
    exact h q ⟨q, hq, .refl⟩
  · rintro h q ⟨m, hm, _⟩
    exact h m hm

/-- A set holds a finish after elimination exactly if its closure held one before. -/
theorem exists_isFinish_closureFrom_iff :
    (∃ q ∈ A.closureFrom states.toList, A.isFinish q = true) ↔
      ∃ q ∈ states, A.eliminateEpsilon.isFinish q = true := by
  simp only [mem_closureFrom, ExtTreeSet.mem_toList, isFinish_eliminateEpsilon]
  constructor
  · rintro ⟨q, ⟨m, hm, hreach⟩, hq⟩
    exact ⟨m, hm, q, hreach, hq⟩
  · rintro ⟨m, hm, q, hreach, hq⟩
    exact ⟨q, ⟨m, hm, hreach⟩, hq⟩

/-! ### Which sets are found -/

/-- The search finds every set that a word reads, unless it is empty. -/
theorem WellFormed.mem_reachableSubsets_of_readBy (hA : A.WellFormed) (hread : A.ReadBy w states)
    (hne : states ≠ ∅) : states ∈ A.reachableSubsets := by
  induction w using List.reverseRecOn generalizing states with
  | nil =>
    rw [hread.unique readBy_nil]
    exact List.mem_of_getElem? getElem?_reachableSubsets_zero
  | append_singleton w c ih =>
    obtain ⟨before, hbefore, hne', hmove⟩ := hA.exists_move_of_readBy hread hne
    exact mem_reachableSubsets_of_move (ih hbefore hne') hmove

/-- Every set found on the direct way is the closure of one found after elimination. -/
theorem WellFormed.exists_closureFrom_eq (hA : A.WellFormed) (h : states ∈ A.reachableSubsets) :
    ∃ free ∈ A.eliminateEpsilon.reachableSubsets, A.closureFrom free.toList = states := by
  obtain ⟨w, hread⟩ := exists_readBy_of_mem_reachableSubsets h
  obtain ⟨free, hfree⟩ := A.eliminateEpsilon.exists_readBy w
  have hclosure : A.closureFrom free.toList = states := hfree.closureFrom.unique hread
  have hne : free ≠ ∅ := by
    rw [ne_eq, ← closureFrom_eq_empty_iff (A := A), hclosure]
    exact hA.ne_empty_of_mem_reachableSubsets h
  exact ⟨free, hA.eliminateEpsilon.mem_reachableSubsets_of_readBy hfree hne, hclosure⟩

/-- The direct way does not find more sets. -/
theorem WellFormed.length_reachableSubsets_le (hA : A.WellFormed) :
    A.reachableSubsets.length ≤ A.eliminateEpsilon.reachableSubsets.length := by
  have hsub : A.reachableSubsets ⊆
      A.eliminateEpsilon.reachableSubsets.map fun free => A.closureFrom free.toList := by
    intro states hstates
    exact List.mem_map.2 (hA.exists_closureFrom_eq hstates)
  have hle := (List.subperm_of_subset nodup_reachableSubsets hsub).length_le
  rwa [List.length_map] at hle

/-! ### The two deterministic automata -/

/-- A subset automaton has as many vertices as subsets. -/
theorem size_determinize (hfew : A.determinize.subsets.length < UInt32.size) :
    A.determinize.automaton.size = A.determinize.subsets.length :=
  size_eq (fun _ => contains_determinize hfew) (Nat.le_of_lt hfew)

/-- There is a run on the words that lead somewhere in the source. -/
theorem exists_path_determinize_iff (hA : A.WellFormed)
    (hfew : A.determinize.subsets.length < UInt32.size) :
    (∃ i, A.determinize.automaton.Path A.determinize.automaton.start w i) ↔
      ∃ q, A.Path A.start w q := by
  rw [start_determinize]
  constructor
  · rintro ⟨i, hpath⟩
    obtain ⟨states, hi, hread⟩ := readBy_of_path hfew hpath
    obtain ⟨q, hq⟩ := hA.exists_mem_of_mem_reachableSubsets (List.mem_of_getElem? hi)
    exact ⟨q, (hread q).1 hq⟩
  · rintro ⟨q, hpath⟩
    obtain ⟨i, _, hpath, _⟩ := exists_path_of_path hfew hA hpath
    exact ⟨i, hpath⟩

/-- Elimination keeps the words that lead somewhere. -/
theorem exists_path_eliminateEpsilon_iff :
    (∃ q, A.eliminateEpsilon.Path A.eliminateEpsilon.start w q) ↔ ∃ q, A.Path A.start w q := by
  simp only [path_iff_eliminateEpsilon (A := A), start_eliminateEpsilon]
  constructor
  · rintro ⟨q, hpath⟩
    exact ⟨q, q, hpath, .refl⟩
  · rintro ⟨_, r, hpath, _⟩
    exact ⟨r, hpath⟩

/-- Whether silent steps are closed on the way or eliminated before, the deterministic automaton
reads the same words; a word leads to the closure, in the source, of the set that it leads to after
elimination, and to a finish in both or in neither. Closing on the way never takes more vertices. -/
theorem determinize_closesUp (A : Automaton) (hA : A.WellFormed)
    (hfew : A.eliminateEpsilon.determinize.subsets.length < UInt32.size) :
    A.determinize.ClosesUp A.eliminateEpsilon.determinize A := by
  have hle : A.determinize.subsets.length ≤ A.eliminateEpsilon.determinize.subsets.length :=
    hA.length_reachableSubsets_le
  have hdirect : A.determinize.subsets.length < UInt32.size := Nat.lt_of_le_of_lt hle hfew
  have hfree := hA.eliminateEpsilon
  have hsubset {w : List Char} {i j : Vertex}
      (hi : A.determinize.automaton.Path A.determinize.automaton.start w i)
      (hj : A.eliminateEpsilon.determinize.automaton.Path
        A.eliminateEpsilon.determinize.automaton.start w j) :
      ∃ states, A.eliminateEpsilon.determinize.subset j = some states ∧
        A.determinize.subset i = some (A.closureFrom states.toList) := by
    rw [start_determinize] at hi hj
    obtain ⟨closed, hclosed, hread⟩ := readBy_of_path hdirect hi
    obtain ⟨states, hstates, hreadfree⟩ := readBy_of_path hfew hj
    exact ⟨states, hstates, hread.unique hreadfree.closureFrom ▸ hclosed⟩
  refine ⟨fun w => ?exists_path_iff, fun w i j => hsubset, fun w i j hi hj => ?isFinish_eq, ?size_le,
    fun w => ?accepts_iff⟩
  case exists_path_iff =>
    rw [exists_path_determinize_iff hA hdirect, exists_path_determinize_iff hfree hfew,
      exists_path_eliminateEpsilon_iff]
  case isFinish_eq =>
    obtain ⟨states, hstates, hclosed⟩ := hsubset hi hj
    rw [Bool.eq_iff_iff, isFinish_determinize_of_subset hdirect hclosed,
      isFinish_determinize_of_subset hfew hstates, exists_isFinish_closureFrom_iff]
  case size_le =>
    rw [size_determinize hdirect, size_determinize hfew]
    exact hle
  case accepts_iff =>
    rw [accepts_determinize_iff hdirect hA, accepts_determinize_iff hfew hfree,
      accepts_eliminateEpsilon_iff]

/-- Two letters lead from the start to the two vertices of a silent cycle. -/
def sharedClosure : Automaton :=
  [⟨0, some 'a', 1⟩, ⟨0, some 'b', 2⟩, ⟨1, none, 2⟩, ⟨2, none, 1⟩].foldl insertTransition
    (((singleton 0).insertVertex 1).insertVertex 2 |>.insertFinish 2)

/-- The automaton with a shared closure is well-formed. -/
theorem wellFormed_sharedClosure : sharedClosure.WellFormed := by
  refine WellFormed.foldl_insertTransition ?_ (by decide)
  exact (((WellFormed.singleton 0).insertVertex 1).insertVertex 2).insertFinish (by decide)

/-- After elimination there are two sets with the shared closure, so closing on the way saves a
vertex. -/
theorem determinize_closesUp_sharedClosure :
    sharedClosure.WellFormed ∧
      sharedClosure.eliminateEpsilon.determinize.subsets.length < UInt32.size ∧
      sharedClosure.determinize.ClosesUp sharedClosure.eliminateEpsilon.determinize sharedClosure := by
  have hfew : sharedClosure.eliminateEpsilon.determinize.subsets.length < UInt32.size := by
    decide +kernel
  exact ⟨wellFormed_sharedClosure, hfew,
    determinize_closesUp sharedClosure wellFormed_sharedClosure hfew⟩

example : sharedClosure.determinize.subsets.length = 2 ∧
    sharedClosure.eliminateEpsilon.determinize.subsets.length = 3 := by decide +kernel

end Automaton

end Recognizer
