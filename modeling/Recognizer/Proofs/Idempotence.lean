import Mathlib.Data.List.Perm.Subperm
import Recognizer.Automaton.Isomorphism
import Recognizer.Proofs.Correspondence
import Recognizer.Proofs.Determinization

/-!
# Deterministic automata are determinized to their reachable parts

In a deterministic automaton no two paths from the start spell one word, so a set that a word reads has
one member (`exists_eq_singleton`). Hence the subset construction finds as many sets as vertices can be
reached, and taking the number of a set to its member is an isomorphism onto the part of the automaton
that can be reached.

If the automaton is itself the result of a subset construction, that isomorphism is the identity. The
second search runs in step with the first: where the first one found a set, the second one finds the
set that has just its number (`mirrors_determinize`).
-/

namespace Recognizer

open Std

namespace VertexSet

variable {states : VertexSet} {p q : Vertex}

/-- A singleton has its vertex as only member. -/
theorem mem_singleton : p ∈ ({q} : VertexSet) ↔ p = q := by
  simpa using eq_comm

/-- A set with just one member. -/
theorem eq_singleton_iff : states = {q} ↔ ∀ p, p ∈ states ↔ p = q := by
  constructor
  · rintro rfl p
    exact mem_singleton
  · exact fun h => ExtTreeSet.ext_mem fun p => (h p).trans mem_singleton.symm

/-- Equal singletons have equal vertices. -/
theorem eq_of_singleton_eq (h : ({p} : VertexSet) = {q}) : p = q :=
  mem_singleton.1 (h ▸ mem_singleton.2 rfl)

end VertexSet

namespace Automaton

variable {A D : Automaton} {f : Vertex → Vertex} {i p q r : Vertex} {s : Symbol} {c : Char}
variable {w : List Char} {states next : VertexSet}

/-! ### Moves without silent steps -/

/-- Without silent steps the closure of a vertex is the vertex. -/
theorem closure_eq_singleton (hfree : ∀ q r, r ∉ A.successors q none) : A.closure q = {q} :=
  VertexSet.eq_singleton_iff.2 fun p => by
    rw [mem_closure]
    constructor
    · exact fun hreach => (hreach.eq hfree).symm
    · rintro rfl
      exact .refl

/-- Without silent steps a vertex moves to its successors. -/
theorem getD_moves_singleton (hfree : ∀ q r, r ∉ A.successors q none) :
    (A.moves {q})[c]?.getD ∅ = A.successors q (some c) :=
  ExtTreeSet.ext_mem fun p => by
    simp only [mem_moves_iff, VertexSet.mem_singleton, exists_eq_left]
    constructor
    · rintro ⟨r, hr, hreach⟩
      exact hreach.eq hfree ▸ hr
    · exact fun hp => ⟨p, hp, .refl⟩

/-! ### Sets of a deterministic automaton -/

/-- Every set that is found has one member. -/
theorem exists_eq_singleton (hD : D.WellFormed) (hdet : D.isDeterministic = true)
    (h : states ∈ D.reachableSubsets) : ∃ q, states = {q} := by
  obtain ⟨q, hq⟩ := hD.exists_mem_of_mem_reachableSubsets h
  obtain ⟨w, hread⟩ := exists_readBy_of_mem_reachableSubsets h
  refine ⟨q, VertexSet.eq_singleton_iff.2 fun p => ?_⟩
  constructor
  · exact fun hp => eq_of_path_of_isDeterministic hdet ((hread p).1 hp) ((hread q).1 hq)
  · rintro rfl
    exact hq

/-- There are not more sets than vertices. -/
theorem length_reachableSubsets_le_size (hD : D.WellFormed) (hdet : D.isDeterministic = true) :
    D.reachableSubsets.length ≤ D.size := by
  have hsub : D.reachableSubsets ⊆ D.vertices.map fun q => ({q} : VertexSet) := by
    intro states hstates
    obtain ⟨q, rfl⟩ := exists_eq_singleton hD hdet hstates
    have hq := hD.contains_of_mem_reachableSubsets hstates (VertexSet.mem_singleton.2 rfl)
    exact List.mem_map.2 ⟨q, mem_vertices.2 hq, rfl⟩
  have hle := (List.subperm_of_subset nodup_reachableSubsets hsub).length_le
  rwa [List.length_map, vertices, ExtTreeMap.length_keys] at hle

/-- Every number stands for one vertex. -/
theorem exists_forall_subset_eq (hD : D.WellFormed) (hdet : D.isDeterministic = true)
    (hfew : D.determinize.subsets.length < UInt32.size) :
    ∃ f : Vertex → Vertex, ∀ i, D.determinize.automaton.contains i = true →
      D.determinize.subset i = some {f i} := by
  have hmember (i : Vertex) : ∃ q, D.determinize.automaton.contains i = true →
      D.determinize.subset i = some {q} := by
    by_cases hi : D.determinize.automaton.contains i = true
    · obtain ⟨states, hget⟩ := (contains_determinize_iff_exists hfew).1 hi
      obtain ⟨q, rfl⟩ := exists_eq_singleton hD hdet (List.mem_of_getElem? hget)
      exact ⟨q, fun _ => hget⟩
    · exact ⟨i, fun h => absurd h hi⟩
  exact Classical.skolem.1 hmember

section Members

variable (hD : D.WellFormed) (hdet : D.isDeterministic = true)
variable (hfew : D.determinize.subsets.length < UInt32.size)
variable (hf : ∀ i, D.determinize.automaton.contains i = true → D.determinize.subset i = some {f i})
include hD hdet hfew hf

/-- What a character leads to from a member are the members for what it leads to from the number. -/
theorem mem_successors_member_iff (hi : D.determinize.automaton.contains i = true) :
    r ∈ D.successors (f i) (some c) ↔
      ∃ p ∈ D.determinize.automaton.successors i (some c), f p = r := by
  have hfree := fun q r => not_mem_successors_of_isDeterministic (q := q) (r := r) hdet
  constructor
  · intro hr
    have hmove : (D.moves {f i})[c]? = some (D.successors (f i) (some c)) :=
      hD.getElem?_moves_iff.2 ⟨getD_moves_singleton hfree, ExtTreeSet.ne_empty_of_mem hr⟩
    obtain ⟨p, hp⟩ := exists_subset_eq hfew
      (mem_reachableSubsets_of_move (List.mem_of_getElem? (hf i hi)) hmove)
    have hstep := (mem_successors_determinize hfew).2 ⟨_, _, c, rfl, hf i hi, hmove, hp⟩
    have hnext := hf p ((wellFormed_determinize hfew).contains_target _ _ _ hstep)
    rw [hp, Option.some.injEq] at hnext
    exact ⟨p, hstep, (VertexSet.mem_singleton.1 (hnext ▸ hr)).symm⟩
  · rintro ⟨p, hstep, rfl⟩
    have hp := hf p ((wellFormed_determinize hfew).contains_target _ _ _ hstep)
    obtain ⟨states, next, d, hd, hstates, hmove, hnext⟩ := (mem_successors_determinize hfew).1 hstep
    cases hd
    rw [hf i hi, Option.some.injEq] at hstates
    rw [hp, Option.some.injEq] at hnext
    subst hstates hnext
    rw [← getD_moves_singleton hfree, hmove, Option.getD_some]
    exact VertexSet.mem_singleton.2 rfl

/-- From the numbers to the members there is an embedding. -/
theorem isEmbedding_determinize : IsEmbedding f D.determinize.automaton D where
  isFinish_iff i hi := by
    rw [isFinish_determinize_of_subset hfew (hf i hi)]
    simp only [VertexSet.mem_singleton, exists_eq_left]
  mem_successors_iff i s r hi := by
    cases s with
    | none =>
      exact iff_of_false (not_mem_successors_of_isDeterministic hdet)
        fun ⟨p, hp, _⟩ => not_mem_successors_determinize hfew hp
    | some c => exact mem_successors_member_iff hD hdet hfew hf hi

/-- From the numbers to the members there is an isomorphism onto what can be reached. -/
theorem isReachablePart_determinize : IsReachablePart f D.determinize.automaton D where
  toIsEmbedding := isEmbedding_determinize hD hdet hfew hf
  start := by
    have hzero := subset_vertexAt hfew getElem?_reachableSubsets_zero
    have hstart := hf _ (wellFormed_determinize hfew).contains_start
    rw [start_determinize] at hstart ⊢
    have hclosure : D.closure D.start = {f 0} := Option.some.inj (hzero.symm.trans hstart)
    exact ((VertexSet.eq_singleton_iff.1 hclosure _).1 (mem_closure.2 .refl)).symm
  bijOn := by
    refine ⟨fun i hi => ?mapsTo, fun i hi j hj heq => ?injOn, fun q ⟨w, hpath⟩ => ?surjOn⟩
    case mapsTo =>
      obtain ⟨w, hread⟩ := exists_readBy_of_mem_reachableSubsets (List.mem_of_getElem? (hf i hi))
      exact ⟨w, (hread (f i)).1 (VertexSet.mem_singleton.2 rfl)⟩
    case injOn => exact eq_of_subset_eq (hf i hi) (heq ▸ hf j hj)
    case surjOn =>
      obtain ⟨i, states, _, hstates, hread⟩ := exists_path_of_path hfew hD hpath
      have hi := (contains_determinize_iff_exists hfew).2 ⟨states, hstates⟩
      rw [hf i hi, Option.some.injEq] at hstates
      exact ⟨i, hi, (VertexSet.mem_singleton.1 (hstates ▸ (hread q).2 hpath)).symm⟩

end Members

/-! ### Results of a subset construction -/

/-- The number of a set that is found. -/
def numberOf (A : Automaton) (states : VertexSet) : Vertex :=
  vertexAt (A.reachableSubsets.idxOf states)

section Bounded

variable (hfew : A.determinize.subsets.length < UInt32.size)
include hfew

/-- The number of a set stands for the set. -/
theorem subset_numberOf (h : states ∈ A.reachableSubsets) :
    A.determinize.subset (A.numberOf states) = some states :=
  subset_vertexAt hfew (List.getElem?_idxOf h)

/-- Whatever stands for a set is its number. -/
theorem numberOf_eq (h : A.determinize.subset q = some states) : A.numberOf states = q :=
  eq_of_subset_eq (subset_numberOf hfew (List.mem_of_getElem? h)) h

/-- From the number of a set a character leads to the number of the set that it leads to. -/
theorem mem_successors_numberOf_iff (h : states ∈ A.reachableSubsets) :
    r ∈ A.determinize.automaton.successors (A.numberOf states) (some c) ↔
      ∃ next, (A.moves states)[c]? = some next ∧ r = A.numberOf next := by
  rw [mem_successors_determinize hfew]
  constructor
  · rintro ⟨states', next, d, hd, hstates, hmove, hnext⟩
    cases hd
    rw [subset_numberOf hfew h, Option.some.injEq] at hstates
    exact ⟨next, hstates ▸ hmove, (numberOf_eq hfew hnext).symm⟩
  · rintro ⟨next, hmove, rfl⟩
    exact ⟨states, next, c, rfl, subset_numberOf hfew h, hmove,
      subset_numberOf hfew (mem_reachableSubsets_of_move h hmove)⟩

/-- Where the first search finds a set, the second one finds the set with its number alone. -/
theorem mirrors_determinize :
    Mirrors (fun states => {A.numberOf states}) A A.determinize.automaton where
  closure_start := by
    rw [closure_eq_singleton fun _ _ => not_mem_successors_determinize hfew, start_determinize,
      numberOf_eq hfew (subset_vertexAt hfew getElem?_reachableSubsets_zero)]
    rfl
  getElem?_moves states hstates c := by
    have hfree := fun q r => not_mem_successors_determinize (q := q) (r := r) hfew
    have hmoves (next : VertexSet) :
        (A.determinize.automaton.moves {A.numberOf states})[c]? = some next ↔
          A.determinize.automaton.successors (A.numberOf states) (some c) = next ∧ next ≠ ∅ := by
      rw [(wellFormed_determinize hfew).getElem?_moves_iff, getD_moves_singleton hfree]
    cases hmove : (A.moves states)[c]? with
    | none =>
      rw [Option.map_none, Option.eq_none_iff_forall_ne_some]
      intro next hnext
      obtain ⟨rfl, hne⟩ := (hmoves next).1 hnext
      refine hne (ExtTreeSet.eq_empty_iff_forall_not_mem.2 fun r hr => ?_)
      obtain ⟨next, hnext, _⟩ := (mem_successors_numberOf_iff hfew hstates).1 hr
      rw [hmove] at hnext
      cases hnext
    | some next =>
      rw [Option.map_some, hmoves]
      refine ⟨VertexSet.eq_singleton_iff.2 fun r => ?_,
        ExtTreeSet.ne_empty_of_mem (VertexSet.mem_singleton.2 rfl)⟩
      rw [mem_successors_numberOf_iff hfew hstates, hmove]
      simp
  exists_isFinish_iff states hstates := by
    simp only [VertexSet.mem_singleton, exists_eq_left]
    exact isFinish_determinize_of_subset hfew (subset_numberOf hfew hstates)
  injOn states hstates next hnext heq := by
    have hnumber : A.numberOf states = A.numberOf next := VertexSet.eq_of_singleton_eq heq
    have hnext := subset_numberOf hfew hnext
    rw [← hnumber, subset_numberOf hfew hstates, Option.some.injEq] at hnext
    exact hnext

/-- Determinizing a second time changes nothing. -/
theorem determinize_determinize :
    A.determinize.automaton.determinize.automaton = A.determinize.automaton := by
  rw [(mirrors_determinize hfew).determinize_eq]

end Bounded

/-- Each set of a deterministic automaton has one member, and by its numbers and its members the result
is isomorphic to what can be reached. If the automaton is the result of a subset construction already,
it is kept as it is. -/
theorem determinize_of_isDeterministic (D : Automaton) (hD : D.WellFormed)
    (hdet : D.isDeterministic = true) (hsize : D.size < UInt32.size) :
    (∀ states ∈ D.determinize.subsets, ∃ q, states = {q}) ∧
    (∃ f : Vertex → Vertex,
      (∀ i, D.determinize.automaton.contains i = true → D.determinize.subset i = some {f i}) ∧
      IsReachablePart f D.determinize.automaton D) ∧
    ∀ A : Automaton, A.determinize.subsets.length < UInt32.size → A.determinize.automaton = D →
      D.determinize.automaton = D := by
  have hfew : D.determinize.subsets.length < UInt32.size :=
    Nat.lt_of_le_of_lt (length_reachableSubsets_le_size hD hdet) hsize
  refine ⟨fun states => exists_eq_singleton hD hdet, ?_, ?_⟩
  · obtain ⟨f, hf⟩ := exists_forall_subset_eq hD hdet hfew
    exact ⟨f, hf, isReachablePart_determinize hD hdet hfew hf⟩
  · rintro A hA rfl
    exact determinize_determinize hA

/-- A deterministic cycle that is not numbered in the order of the search, with a vertex that leads to
it but cannot be reached. -/
def enteredCycle : Automaton :=
  [⟨0, some 'a', 2⟩, ⟨2, some 'b', 1⟩, ⟨1, some 'a', 0⟩, ⟨3, some 'a', 1⟩].foldl insertTransition
    ((((singleton 0).insertVertex 1).insertVertex 2).insertVertex 3 |>.insertFinish 1)

/-- The entered cycle is well-formed. -/
theorem wellFormed_enteredCycle : enteredCycle.WellFormed := by
  refine WellFormed.foldl_insertTransition ?_ (by decide)
  exact ((((WellFormed.singleton 0).insertVertex 1).insertVertex 2).insertVertex 3).insertFinish
    (by decide)

/-- Of the entered cycle the cycle remains, with new numbers, and these are kept from then on. -/
theorem determinize_enteredCycle_of_isDeterministic :
    enteredCycle.isDeterministic = true ∧ enteredCycle.size < UInt32.size ∧
      (∀ states ∈ enteredCycle.determinize.subsets, ∃ q, states = {q}) ∧
      (∃ f : Vertex → Vertex,
        (∀ i, enteredCycle.determinize.automaton.contains i = true →
          enteredCycle.determinize.subset i = some {f i}) ∧
        IsReachablePart f enteredCycle.determinize.automaton enteredCycle) ∧
      enteredCycle.determinize.automaton.determinize.automaton =
        enteredCycle.determinize.automaton := by
  have hdet : enteredCycle.isDeterministic = true := by decide +kernel
  have hsize : enteredCycle.size < UInt32.size := by decide +kernel
  have hfew : enteredCycle.determinize.subsets.length < UInt32.size := by decide +kernel
  have hcycle := determinize_of_isDeterministic enteredCycle wellFormed_enteredCycle hdet hsize
  have hagain := determinize_of_isDeterministic enteredCycle.determinize.automaton
    (wellFormed_determinize hfew) (isDeterministic_determinize hfew) (by decide +kernel)
  exact ⟨hdet, hsize, hcycle.1, hcycle.2.1, hagain.2.2 enteredCycle hfew rfl⟩

end Automaton

end Recognizer
