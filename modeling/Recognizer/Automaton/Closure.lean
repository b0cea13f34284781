import Recognizer.Automaton.Basic

/-!
# Epsilon closure

The vertices that can be reached by silent steps alone, found by a search that keeps a stack of
vertices still to visit. The starting vertices belong to the closure even if they are not in the
automaton.

The search ends on every automaton, cyclic or not: a visit of a new vertex uses up its silent
steps for good, so the steps not yet used together with the stack get fewer with each move.
-/

namespace Recognizer

open Std

namespace Automaton

/-- The vertices that one silent step from `q` leads to. -/
def epsilonSuccessors (A : Automaton) (q : Vertex) : List Vertex :=
  (A.successors q none).toList

/-- The number of silent steps that leave the listed vertices, except those in `seen`. -/
def unusedStepsFrom (A : Automaton) (seen : VertexSet) (qs : List Vertex) : Nat :=
  qs.foldr (fun q count => (if q ∈ seen then 0 else (A.epsilonSuccessors q).length) + count) 0

/-- The number of silent steps that leave the vertices outside `seen`. -/
def unusedSteps (A : Automaton) (seen : VertexSet) : Nat :=
  A.unusedStepsFrom seen A.vertices

/-- Silent steps leave vertices of the automaton only. -/
theorem epsilonSuccessors_eq_nil {A : Automaton} {q : Vertex} (h : q ∉ A.vertices) :
    A.epsilonSuccessors q = [] := by
  have hnone : A.outgoing[q]? = none := by simpa [vertices] using h
  simp [epsilonSuccessors, successors, hnone]

/-- Seeing a listed vertex uses up its silent steps; the others stay as they are. -/
theorem unusedStepsFrom_insert_le (A : Automaton) {seen : VertexSet} {q : Vertex}
    (hnew : q ∉ seen) (qs : List Vertex) :
    A.unusedStepsFrom (seen.insert q) qs + (if q ∈ qs then (A.epsilonSuccessors q).length else 0)
      ≤ A.unusedStepsFrom seen qs := by
  have hself : q ∈ seen.insert q := by simp
  induction qs with
  | nil => simp [unusedStepsFrom]
  | cons r rest ih =>
    simp only [unusedStepsFrom, List.foldr_cons] at ih ⊢
    by_cases hr : r = q
    · subst hr
      simp only [hself, hnew, if_true, if_false, List.mem_cons, true_or]
      split at ih <;> omega
    · have hmem : r ∈ seen.insert q ↔ r ∈ seen := by
        simp [ExtTreeSet.mem_insert, Ne.symm hr]
      simp only [hmem, List.mem_cons, Ne.symm hr, false_or]
      omega

/-- A new vertex takes its silent steps out of the unused ones. -/
theorem unusedSteps_insert_le (A : Automaton) {seen : VertexSet} {q : Vertex} (hnew : q ∉ seen) :
    A.unusedSteps (seen.insert q) + (A.epsilonSuccessors q).length ≤ A.unusedSteps seen := by
  have h := A.unusedStepsFrom_insert_le hnew A.vertices
  by_cases hq : q ∈ A.vertices
  · simpa only [unusedSteps, hq, if_true] using h
  · simpa only [unusedSteps, hq, if_false, epsilonSuccessors_eq_nil hq, List.length_nil] using h

/-- Visit the vertices of the stack and all that silent steps lead to, except those in `seen`. -/
def closeOver (A : Automaton) (stack : List Vertex) (seen : VertexSet) : VertexSet :=
  match stack with
  | [] => seen
  | q :: rest =>
    if _hseen : q ∈ seen then A.closeOver rest seen
    else A.closeOver (A.epsilonSuccessors q ++ rest) (seen.insert q)
termination_by A.unusedSteps seen + stack.length
decreasing_by
  · simp only [List.length_cons]
    omega
  · have h := A.unusedSteps_insert_le _hseen
    simp only [List.length_append, List.length_cons]
    omega

/-- A property of the stack and the seen vertices that silent steps keep holds of all visited
vertices. -/
theorem forall_mem_closeOver {A : Automaton} {P : Vertex → Prop} {stack : List Vertex}
    {seen : VertexSet} (hstep : ∀ q, P q → ∀ r ∈ A.epsilonSuccessors q, P r)
    (hstack : ∀ q ∈ stack, P q) (hseen : ∀ q ∈ seen, P q) :
    ∀ q ∈ A.closeOver stack seen, P q := by
  fun_induction closeOver A stack seen with
  | case1 => exact hseen
  | case2 seen q rest _ ih => exact ih (fun r hr => hstack r (List.mem_cons_of_mem _ hr)) hseen
  | case3 seen q rest _ ih =>
    have hq : P q := hstack q List.mem_cons_self
    refine ih (fun r hr => ?_) fun r hr => ?_
    · rcases List.mem_append.1 hr with hr | hr
      · exact hstep q hq r hr
      · exact hstack r (List.mem_cons_of_mem _ hr)
    · rcases ExtTreeSet.mem_insert.1 hr with heq | hr
      · exact LawfulEqCmp.eq_of_compare heq ▸ hq
      · exact hseen r hr

/-- All vertices that silent steps lead to from a member of `qs`, these included. -/
def closureFrom (A : Automaton) (qs : List Vertex) : VertexSet :=
  A.closeOver qs ∅

/-- All vertices that silent steps lead to from `q`, itself included. -/
def closure (A : Automaton) (q : Vertex) : VertexSet :=
  A.closureFrom [q]

end Automaton

end Recognizer
