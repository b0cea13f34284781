import Recognizer.Automaton.WellFormed

/-!
# Paths and accepted words

A path leads from one vertex to another and spells the word of the characters on its way; a silent
step spells nothing. An automaton accepts the words of the paths from its start to a finish.

Main statement: a path that spells `u ++ v` can be cut after `u` (`path_append_iff`), so languages
can be compared word by word.
-/

namespace Recognizer

namespace Automaton

/-- There is a path between two vertices that spells the given word. -/
inductive Path (A : Automaton) : Vertex → List Char → Vertex → Prop where
  /-- The path that stays where it is. -/
  | nil (q : Vertex) : Path A q [] q
  /-- A step on a symbol before a path. -/
  | step {q r p : Vertex} {s : Symbol} {w : List Char} (first : r ∈ A.successors q s)
      (rest : Path A r w p) : Path A q (s.toList ++ w) p

/-- Some path from `q` to a finish spells `w`. -/
def AcceptsFrom (A : Automaton) (q : Vertex) (w : List Char) : Prop :=
  ∃ p, A.isFinish p = true ∧ A.Path q w p

/-- Some path from the start to a finish spells `w`. -/
def Accepts (A : Automaton) (w : List Char) : Prop :=
  A.AcceptsFrom A.start w

variable {A B : Automaton} {p q r : Vertex} {u v : List Char}

namespace Path

/-- A single step is a path. -/
theorem single {s : Symbol} (h : r ∈ A.successors q s) : A.Path q s.toList r := by
  simpa using step h (nil r)

/-- A path is continued by another one. -/
theorem append (h : A.Path q u r) (h' : A.Path r v p) : A.Path q (u ++ v) p := by
  induction h with
  | nil => exact h'
  | step first _ ih => simpa using step first (ih h')

/-- What has more transitions has more paths. -/
theorem mono (hAB : ∀ q s, ∀ r ∈ A.successors q s, r ∈ B.successors q s) (h : A.Path q u p) :
    B.Path q u p := by
  induction h with
  | nil q => exact nil q
  | step first _ ih => exact step (hAB _ _ _ first) ih

end Path

/-- A path can be cut wherever its word is cut. -/
theorem path_append_iff : A.Path q (u ++ v) p ↔ ∃ r, A.Path q u r ∧ A.Path r v p := by
  constructor
  · generalize hw : u ++ v = w
    intro h
    induction h generalizing u with
    | nil q =>
      obtain ⟨rfl, rfl⟩ := List.append_eq_nil_iff.1 hw
      exact ⟨q, .nil q, .nil q⟩
    | @step q r p s w first rest ih =>
      cases s with
      | none =>
        obtain ⟨m, hm, hv⟩ := ih (by simpa using hw)
        exact ⟨m, by simpa using Path.step first hm, hv⟩
      | some c =>
        cases u with
        | nil => exact ⟨q, .nil q, by simpa only [← hw, List.nil_append] using Path.step first rest⟩
        | cons d u =>
          simp only [List.cons_append, Option.toList_some, List.cons.injEq, List.nil_append] at hw
          obtain ⟨rfl, hw⟩ := hw
          obtain ⟨m, hm, hv⟩ := ih hw
          exact ⟨m, Path.step first hm, hv⟩
  · rintro ⟨r, h, h'⟩
    exact h.append h'

/-- A path from a vertex ends at a vertex. -/
theorem WellFormed.contains_of_path (hA : A.WellFormed) (hq : A.contains q = true)
    (h : A.Path q u p) : A.contains p = true := by
  induction h with
  | nil => exact hq
  | step first _ ih => exact ih (hA.contains_target _ _ _ first)

/-- A word accepted after a path is accepted with the word of the path in front. -/
theorem AcceptsFrom.of_path (h : A.Path q u r) (hv : A.AcceptsFrom r v) :
    A.AcceptsFrom q (u ++ v) := by
  obtain ⟨p, hp, hpath⟩ := hv
  exact ⟨p, hp, h.append hpath⟩

end Automaton

end Recognizer
