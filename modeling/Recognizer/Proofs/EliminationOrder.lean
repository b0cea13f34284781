import Recognizer.Proofs.Atomicity
import Recognizer.Proofs.Elimination
import Recognizer.Proofs.Runs

/-!
# Elimination refers to the automaton as it was

Elimination in place first visits the vertices and takes notes, and changes the automaton only after
that. So every visit finds the automaton as it was given, the notes are those of all vertices taken
together, and the order of the visits shows in the order of the notes only (`run_foldlM_gather`).
That order does not matter either, since a set of finishes or of transitions is added
(`run_eliminateEpsilonAlong`).

Main statement: on each character a vertex gets the successors that the vertices in its closure had,
and it becomes a finish if one of these was. Hence a second elimination changes nothing, nor does the
first if there are no silent steps (`eliminateEpsilon_exact`).
-/

namespace Recognizer

open Std

namespace Automaton

open Update

variable {A B : Automaton} {q : Vertex} {order : List Vertex} {finishes : VertexSet}
variable {ts ts' : List (Transition Vertex)}

/-! ### Only sets are added -/

/-- Transitions may be inserted in any order, and repeatedly. -/
theorem foldl_insertTransition_congr (h : ∀ t, t ∈ ts ↔ t ∈ ts') :
    ts.foldl Automaton.insertTransition A = ts'.foldl Automaton.insertTransition A := by
  apply ext_of_hasEntry
  · rw [start_foldl_insertTransition, start_foldl_insertTransition]
  · intro q
    rw [Bool.eq_iff_iff, contains_foldl_insertTransition, contains_foldl_insertTransition]
    simp only [h]
  · intro q
    rw [isFinish, isFinish, finishes_foldl_insertTransition, finishes_foldl_insertTransition]
  · intro q s
    rw [Bool.eq_iff_iff, hasEntry_foldl_insertTransition, hasEntry_foldl_insertTransition]
    simp only [h]
  · intro q s
    apply ExtTreeSet.ext_mem
    intro r
    rw [mem_successors_foldl_insertTransition, mem_successors_foldl_insertTransition, h]

/-- Insertions of transitions do not touch the finishes. -/
theorem foldl_insertTransition_with_finishes :
    ts.foldl Automaton.insertTransition { A with finishes } =
      { ts.foldl Automaton.insertTransition A with finishes } := by
  induction ts generalizing A with
  | nil => rfl
  | cons t rest ih => exact ih (A := A.insertTransition t)

/-! ### Visits in any order -/

/-- Every visit finds the automaton as it was given. -/
theorem run_foldlM_gather (harvest : Harvest) :
    (order.foldlM gather harvest).run A = .ok
      { finishes := harvest.finishes ++ order.filter A.becomesFinish
        transitions := harvest.transitions ++ order.flatMap A.inheritedTransitions } A := by
  induction order generalizing harvest with
  | nil => simp
  | cons q rest ih =>
    have hgather : (gather harvest q).run A = .ok
        { finishes := if A.becomesFinish q then harvest.finishes ++ [q] else harvest.finishes
          transitions := harvest.transitions ++ A.inheritedTransitions q } A := rfl
    rw [List.foldlM_cons, EStateM.run_bind, hgather]
    simp only [ih, List.flatMap_cons, List.append_assoc]
    cases hfinish : A.becomesFinish q with
    | true => simp [hfinish]
    | false => simp [hfinish]

/-- In whatever order the vertices are visited, and be it repeatedly, elimination in place gives the
eliminated automaton. -/
theorem run_eliminateEpsilonAlong (h : ∀ q, q ∈ order ↔ A.contains q = true) :
    (eliminateEpsilonAlong order).run A = .ok () A.eliminateEpsilon := by
  have hfinishes : A.finishes.insertMany (order.filter A.becomesFinish) =
      A.finishes.insertMany A.newFinishes := by
    apply ExtTreeSet.ext_mem
    intro q
    have hvertex : q ∈ order ↔ q ∈ A.vertices := (h q).trans mem_vertices.symm
    simp [newFinishes, becomesFinish, hvertex]
  have htransitions : (order.flatMap A.inheritedTransitions).foldl Automaton.insertTransition A =
      A.copiedTransitions.foldl Automaton.insertTransition A := by
    apply foldl_insertTransition_congr
    intro t
    simp only [copiedTransitions, List.mem_flatMap, h, mem_vertices]
  rw [eliminateEpsilonAlong, EStateM.run_bind, run_foldlM_gather]
  simp only [List.nil_append, EStateM.run_bind, EStateM.run_modify, run_forM_insertTransition,
    foldl_insertTransition_with_finishes, hfinishes, htransitions]
  rw [eliminateEpsilon, finishes_foldl_insertTransition]

/-! ### What elimination gives -/

/-- Elimination changes nothing where there are no silent steps. -/
theorem WellFormed.eliminateEpsilon_eq_self (hA : A.WellFormed) (hfree : A.isEpsilonFree = true) :
    A.eliminateEpsilon = A := by
  have hstep (q r : Vertex) : r ∉ A.successors q none := by
    intro hr
    have hentry := isEpsilonFree_iff.1 hfree q
    rw [hasEntry_of_mem_successors hr] at hentry
    cases hentry
  have hreach {q r : Vertex} (h : A.SilentlyReaches q r) : q = r := h.eq hstep
  refine hA.eliminateEpsilon.ext hA start_eliminateEpsilon (fun q => contains_eliminateEpsilon)
    (fun q => ?_) fun q s => ExtTreeSet.ext_mem fun r => ?_
  · rw [Bool.eq_iff_iff, isFinish_eliminateEpsilon]
    constructor
    · intro h
      obtain ⟨r, hr, hfinish⟩ := h
      exact hreach hr ▸ hfinish
    · intro h
      exact ⟨q, .refl, h⟩
  · cases s with
    | none => exact iff_of_false not_mem_successors_eliminateEpsilon (hstep q r)
    | some c =>
      rw [mem_successors_eliminateEpsilon]
      constructor
      · intro h
        obtain ⟨m, hm, hr⟩ := h
        exact hreach hm ▸ hr
      · intro h
        exact ⟨q, .refl, h⟩

/-- Elimination keeps the start and the vertices. On each character a vertex then has all successors
that the vertices had which it reached by silent steps, it has none without a character, and it is a
finish if it reached a finish. So elimination changes nothing when it is repeated, nor where there
are no silent steps; and elimination in place gives just this automaton, in whatever order it visits
the vertices. -/
theorem eliminateEpsilon_exact (A : Automaton) (hA : A.WellFormed) :
    A.eliminateEpsilon.start = A.start ∧
      (∀ q, A.eliminateEpsilon.contains q = A.contains q) ∧
      (∀ q c r, r ∈ A.eliminateEpsilon.successors q (some c) ↔
        ∃ m ∈ A.closure q, r ∈ A.successors m (some c)) ∧
      (∀ q r, r ∉ A.eliminateEpsilon.successors q none) ∧
      (∀ q, A.eliminateEpsilon.isFinish q = true ↔ ∃ m ∈ A.closure q, A.isFinish m = true) ∧
      (∀ q r, r ∈ A.closure q ↔ A.SilentlyReaches q r) ∧
      A.eliminateEpsilon.eliminateEpsilon = A.eliminateEpsilon ∧
      (A.isEpsilonFree = true → A.eliminateEpsilon = A) ∧
      ∀ order, (∀ q, q ∈ order ↔ A.contains q = true) →
        (eliminateEpsilonAlong order).run A = .ok () A.eliminateEpsilon := by
  have hfree : A.eliminateEpsilon.isEpsilonFree = true := isEpsilonFree_eraseEpsilon _
  refine ⟨start_eliminateEpsilon, fun q => contains_eliminateEpsilon, fun q c r => ?_,
    fun q r => not_mem_successors_eliminateEpsilon, fun q => ?_, fun q r => mem_closure,
    hA.eliminateEpsilon.eliminateEpsilon_eq_self hfree, hA.eliminateEpsilon_eq_self,
    fun order horder => run_eliminateEpsilonAlong horder⟩
  · simp only [mem_successors_eliminateEpsilon, mem_closure]
  · simp only [isFinish_eliminateEpsilon, mem_closure]

/-- Two silent ways from the start to a vertex with a letter, and a silent way back. -/
def silentDiamond : Automaton :=
  [⟨0, none, 1⟩, ⟨0, none, 2⟩, ⟨1, none, 3⟩, ⟨2, none, 3⟩, ⟨3, none, 0⟩, ⟨3, some 'a', 1⟩].foldl
    Automaton.insertTransition
      ((((singleton 0).insertVertex 1).insertVertex 2).insertVertex 3 |>.insertFinish 2)

/-- The silent diamond is well-formed. -/
theorem wellFormed_silentDiamond : silentDiamond.WellFormed := by
  refine WellFormed.foldl_insertTransition ?_ (by decide)
  exact ((((WellFormed.singleton 0).insertVertex 1).insertVertex 2).insertVertex 3).insertFinish
    (by decide)

/-- All vertices of the diamond become finishes with the letter, in whatever order they are visited,
and then there is nothing left to eliminate. -/
theorem eliminateEpsilon_exact_silentDiamond :
    silentDiamond.WellFormed ∧ silentDiamond.eliminateEpsilon.WellFormed ∧
      1 ∈ silentDiamond.eliminateEpsilon.successors 0 (some 'a') ∧
      silentDiamond.eliminateEpsilon.isFinish 3 = true ∧
      (∀ q, q ∈ [3, 1, 2, 0, 1] ↔ silentDiamond.contains q = true) ∧
      (eliminateEpsilonAlong [3, 1, 2, 0, 1]).run silentDiamond =
        .ok () silentDiamond.eliminateEpsilon ∧
      silentDiamond.eliminateEpsilon.isEpsilonFree = true ∧
      silentDiamond.eliminateEpsilon.eliminateEpsilon = silentDiamond.eliminateEpsilon := by
  have hvertices (q : Vertex) : q ∈ [3, 1, 2, 0, 1] ↔ silentDiamond.contains q = true := by
    simp only [silentDiamond, contains_foldl_insertTransition, contains_insertFinish,
      contains_insertVertex, contains_singleton, List.mem_cons, List.not_mem_nil, or_false,
      exists_eq_or_imp, exists_eq_left]
    grind
  have hwell := wellFormed_silentDiamond
  have hfree : silentDiamond.eliminateEpsilon.isEpsilonFree = true := isEpsilonFree_eraseEpsilon _
  obtain ⟨_, _, hsuccessors, _, hfinish, _, _, _, hrun⟩ := eliminateEpsilon_exact silentDiamond hwell
  have hagain := eliminateEpsilon_exact silentDiamond.eliminateEpsilon hwell.eliminateEpsilon
  refine ⟨hwell, hwell.eliminateEpsilon, (hsuccessors 0 'a' 1).2 ⟨3, ?_, ?_⟩,
    (hfinish 3).2 ⟨2, ?_, ?_⟩, hvertices, hrun _ hvertices, hfree,
    hagain.2.2.2.2.2.2.2.1 hfree⟩
  all_goals decide +kernel

end Automaton

end Recognizer
