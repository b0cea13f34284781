import Mathlib.Logic.Relation
import Recognizer.Automaton.Closure
import Recognizer.Automaton.Path

/-!
# Silent steps, closures and single letters

Silent reachability is the reflexive and transitive closure of the silent steps. The search for a
closure finds exactly the silently reachable vertices (`mem_closureFrom`), and the paths that spell
the empty word are the silent ones (`path_nil_iff`).

A path that spells a word with a first letter runs silently, takes one step on that letter, and goes
on (`path_cons_iff`). This is the only decomposition of paths that later modules use.
-/

namespace Recognizer

open Std Relation

namespace Automaton

/-- Silent steps alone lead from one vertex to the other. -/
def SilentlyReaches (A : Automaton) : Vertex → Vertex → Prop :=
  ReflTransGen fun q r => r ∈ A.successors q none

variable {A : Automaton} {p q r : Vertex} {c : Char} {w : List Char}

/-- The silent successors are those without a character. -/
@[simp]
theorem mem_epsilonSuccessors : r ∈ A.epsilonSuccessors q ↔ r ∈ A.successors q none :=
  ExtTreeSet.mem_toList

/-! ### The search finds the reachable vertices -/

/-- No vertex is dropped once it is seen. -/
theorem mem_closeOver_of_mem_seen {stack : List Vertex} {seen : VertexSet} (h : r ∈ seen) :
    r ∈ A.closeOver stack seen := by
  fun_induction closeOver A stack seen with
  | case1 => exact h
  | case2 seen q rest _ ih => exact ih h
  | case3 seen q rest _ ih => exact ih (ExtTreeSet.mem_insert.2 (Or.inr h))

/-- Every vertex of the stack is visited. -/
theorem mem_closeOver_of_mem_stack {stack : List Vertex} {seen : VertexSet} (h : r ∈ stack) :
    r ∈ A.closeOver stack seen := by
  fun_induction closeOver A stack seen with
  | case1 => simp at h
  | case2 seen q rest hseen ih =>
    rcases List.mem_cons.1 h with rfl | h
    · exact mem_closeOver_of_mem_seen hseen
    · exact ih h
  | case3 seen q rest _ ih =>
    rcases List.mem_cons.1 h with rfl | h
    · exact mem_closeOver_of_mem_seen (by simp)
    · exact ih (List.mem_append_right _ h)

/-- The silent steps of a vertex that the search visits stay among the visited vertices. -/
theorem mem_closeOver_of_mem_successors {stack : List Vertex} {seen : VertexSet}
    (hq : q ∈ A.closeOver stack seen) (hnew : q ∉ seen) (hr : r ∈ A.successors q none) :
    r ∈ A.closeOver stack seen := by
  fun_induction closeOver A stack seen with
  | case1 => exact absurd hq hnew
  | case2 seen p rest _ ih => exact ih hq hnew
  | case3 seen p rest _ ih =>
    by_cases hpq : p = q
    · subst hpq
      exact mem_closeOver_of_mem_stack (List.mem_append_left _ (mem_epsilonSuccessors.2 hr))
    · have hnew' : q ∉ seen.insert p := by
        simpa [ExtTreeSet.mem_insert, hpq] using hnew
      exact ih hq hnew'

/-- The closure of a list holds what silent steps reach from one of its members. -/
theorem mem_closureFrom {qs : List Vertex} :
    r ∈ A.closureFrom qs ↔ ∃ q ∈ qs, A.SilentlyReaches q r := by
  apply Iff.intro
  · apply forall_mem_closeOver (P := fun r => ∃ q ∈ qs, A.SilentlyReaches q r)
    · intro q hq r hr
      obtain ⟨m, hm, hreach⟩ := hq
      exact ⟨m, hm, hreach.tail (mem_epsilonSuccessors.1 hr)⟩
    · intro q hq
      exact ⟨q, hq, .refl⟩
    · simp
  · intro h
    obtain ⟨q, hq, hreach⟩ := h
    induction hreach with
    | refl => exact mem_closeOver_of_mem_stack hq
    | tail _ hstep ih => exact mem_closeOver_of_mem_successors ih (by simp) hstep

/-- The closure of a vertex holds what silent steps reach from it. -/
theorem mem_closure : r ∈ A.closure q ↔ A.SilentlyReaches q r := by
  simp [closure, mem_closureFrom]

/-! ### Paths, letter by letter -/

/-- The paths that spell nothing are the silent ones. -/
theorem path_nil_iff : A.Path q [] p ↔ A.SilentlyReaches q p := by
  apply Iff.intro
  · generalize hw : ([] : List Char) = w
    intro h
    induction h with
    | nil q => exact .refl
    | @step q r p s w first _ ih =>
      cases s with
      | none => exact (ih hw).head first
      | some c => simp at hw
  · intro h
    induction h using ReflTransGen.head_induction_on with
    | refl => exact .nil p
    | head first _ ih => simpa using Path.step first ih

/-- A path on a word with a first letter runs silently up to a step on that letter. -/
theorem path_cons_iff :
    A.Path q (c :: w) p ↔ ∃ r, A.SilentlyReaches q r ∧ ∃ m ∈ A.successors r (some c), A.Path m w p := by
  apply Iff.intro
  · generalize hv : c :: w = v
    intro h
    induction h with
    | nil q => simp at hv
    | @step q r p s v first rest ih =>
      cases s with
      | none =>
        obtain ⟨m, hreach, hm⟩ := ih hv
        exact ⟨m, hreach.head first, hm⟩
      | some d =>
        obtain ⟨rfl, rfl⟩ : c = d ∧ w = v := by simpa using hv
        exact ⟨q, .refl, r, first, rest⟩
  · intro h
    obtain ⟨r, hreach, m, hm, hpath⟩ := h
    exact (path_nil_iff.2 hreach).append (Path.step hm hpath)

/-- Without silent steps the only vertex reached on nothing is the one where the path starts. -/
theorem SilentlyReaches.eq (h : A.SilentlyReaches q r) (hfree : ∀ q r, r ∉ A.successors q none) :
    q = r := by
  cases h.cases_head with
  | inl heq => exact heq
  | inr hstep => exact absurd hstep.choose_spec.1 (hfree _ _)

/-- The empty word is accepted where silent steps lead to a finish. -/
theorem acceptsFrom_nil_iff :
    A.AcceptsFrom q [] ↔ ∃ r, A.SilentlyReaches q r ∧ A.isFinish r = true := by
  simp only [AcceptsFrom, path_nil_iff, and_comm]

/-- A word is accepted letter by letter. -/
theorem acceptsFrom_cons_iff :
    A.AcceptsFrom q (c :: w) ↔
      ∃ r, A.SilentlyReaches q r ∧ ∃ m ∈ A.successors r (some c), A.AcceptsFrom m w := by
  simp only [AcceptsFrom, path_cons_iff]
  apply Iff.intro
  · intro h
    obtain ⟨p, hp, r, hreach, m, hm, hpath⟩ := h
    exact ⟨r, hreach, m, hm, p, hp, hpath⟩
  · intro h
    obtain ⟨r, hreach, m, hm, p, hp, hpath⟩ := h
    exact ⟨p, hp, r, hreach, m, hm, hpath⟩

end Automaton

end Recognizer
