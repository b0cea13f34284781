import Mathlib.Data.Set.Function
import Recognizer.Automaton.Path
import Recognizer.Automaton.WellFormed

/-!
# Maps between automata

A map that keeps the start, the finishes and the transitions takes paths to paths, so whatever is
accepted before is accepted after it (`IsHomomorphism.accepts`). A bijection between the vertices
that keeps just these only changes identifiers, and the words that are accepted are the same
(`IsIsomorphism.accepts_iff`).

An embedding asks nothing of the start. It puts an automaton into another one that adds no finish and
no way out to its images, so every vertex accepts what it did before
(`IsEmbedding.acceptsFrom_iff`). If it keeps the start and its images are all that can be reached, it
shows the reachable part of the other automaton (`IsReachablePart`).
-/

namespace Recognizer

namespace Automaton

variable {A B : Automaton} {f : Vertex → Vertex} {p q r : Vertex} {s : Symbol} {w : List Char}

/-- The start, the finishes and the transitions of `A` are taken to those of `B`. -/
structure IsHomomorphism (f : Vertex → Vertex) (A B : Automaton) : Prop where
  start : f A.start = B.start
  isFinish : ∀ q, A.isFinish q = true → B.isFinish (f q) = true
  mem_successors : ∀ q s, ∀ r ∈ A.successors q s, f r ∈ B.successors (f q) s

namespace IsHomomorphism

/-- A path is taken to a path on the same word. -/
theorem path (h : IsHomomorphism f A B) (hpath : A.Path q w p) : B.Path (f q) w (f p) := by
  induction hpath with
  | nil q => exact .nil (f q)
  | step first _ ih => exact .step (h.mem_successors _ _ _ first) ih

/-- Whatever `A` accepts is accepted by `B`. -/
theorem accepts (h : IsHomomorphism f A B) (hw : A.Accepts w) : B.Accepts w := by
  obtain ⟨p, hp, hpath⟩ := hw
  refine ⟨f p, h.isFinish p hp, ?_⟩
  rw [← h.start]
  exact h.path hpath

end IsHomomorphism

/-- At the image of a vertex of `A`, whether it is a finish and where transitions lead is as in `A`. -/
structure IsEmbedding (f : Vertex → Vertex) (A B : Automaton) : Prop where
  isFinish_iff : ∀ q, A.contains q = true → (B.isFinish (f q) = true ↔ A.isFinish q = true)
  mem_successors_iff : ∀ q s r, A.contains q = true →
    (r ∈ B.successors (f q) s ↔ ∃ p ∈ A.successors q s, f p = r)

namespace IsEmbedding

variable (h : IsEmbedding f A B) (hA : A.WellFormed)
include h hA

/-- The image of a path is a path. -/
theorem path (hq : A.contains q = true) (hpath : A.Path q w p) : B.Path (f q) w (f p) := by
  induction hpath with
  | nil q => exact .nil (f q)
  | step first _ ih =>
    exact .step ((h.mem_successors_iff _ _ _ hq).2 ⟨_, first, rfl⟩) (ih (hA.contains_target _ _ _ first))

/-- No path leads from an image to anything but images. -/
theorem exists_path (hq : A.contains q = true) (hpath : B.Path (f q) w p) :
    ∃ r, A.contains r = true ∧ A.Path q w r ∧ f r = p := by
  generalize hstart : f q = start at hpath
  induction hpath generalizing q with
  | nil => exact ⟨q, hq, .nil q, hstart⟩
  | step first _ ih =>
    subst hstart
    obtain ⟨m, hm, hfirst⟩ := (h.mem_successors_iff _ _ _ hq).1 first
    obtain ⟨r, hr, hrest, hend⟩ := ih (hA.contains_target _ _ _ hm) hfirst
    exact ⟨r, hr, .step hm hrest, hend⟩

/-- The image of a vertex accepts the same words as the vertex. -/
theorem acceptsFrom_iff (hq : A.contains q = true) :
    B.AcceptsFrom (f q) w ↔ A.AcceptsFrom q w := by
  constructor
  · rintro ⟨_, hp, hpath⟩
    obtain ⟨r, hr, hrest, rfl⟩ := h.exists_path hA hq hpath
    exact ⟨r, (h.isFinish_iff r hr).1 hp, hrest⟩
  · rintro ⟨r, hr, hpath⟩
    exact ⟨f r, (h.isFinish_iff r (hA.contains_finish r hr)).2 hr, h.path hA hq hpath⟩

end IsEmbedding

/-- The vertices of `A` are renamed to those of `B`, with the start, all finishes and all
transitions. -/
structure IsIsomorphism (f : Vertex → Vertex) (A B : Automaton) : Prop where
  bijOn : Set.BijOn f {q | A.contains q = true} {q | B.contains q = true}
  start : f A.start = B.start
  isFinish_iff : ∀ q, A.contains q = true → (B.isFinish (f q) = true ↔ A.isFinish q = true)
  mem_successors_iff : ∀ q s r, A.contains q = true → A.contains r = true →
    (f r ∈ B.successors (f q) s ↔ r ∈ A.successors q s)

namespace IsIsomorphism

/-- An isomorphism from a well-formed automaton is a homomorphism. -/
theorem isHomomorphism (h : IsIsomorphism f A B) (hA : A.WellFormed) : IsHomomorphism f A B where
  start := h.start
  isFinish q hq := (h.isFinish_iff q (hA.contains_finish q hq)).2 hq
  mem_successors q s r hr :=
    (h.mem_successors_iff q s r (contains_of_mem_successors hr) (hA.contains_target q s r hr)).2 hr

/-- Renaming can be undone. -/
theorem exists_symm (h : IsIsomorphism f A B) (hstart : A.contains A.start = true) :
    ∃ g, IsIsomorphism g B A := by
  let g := Function.invFunOn f {q | A.contains q = true}
  have hinv : Set.InvOn g f {q | A.contains q = true} {q | B.contains q = true} :=
    h.bijOn.invOn_invFunOn
  have hg : Set.BijOn g {q | B.contains q = true} {q | A.contains q = true} :=
    h.bijOn.symm hinv.symm
  refine ⟨g, hg, ?_, fun q hq => ?_, fun q s r hq hr => ?_⟩
  · rw [← h.start]
    exact hinv.1 hstart
  · rw [← h.isFinish_iff _ (hg.mapsTo hq), hinv.2 hq]
  · rw [← h.mem_successors_iff _ _ _ (hg.mapsTo hq) (hg.mapsTo hr), hinv.2 hq, hinv.2 hr]

/-- Renamed automata accept the same words. -/
theorem accepts_iff (h : IsIsomorphism f A B) (hA : A.WellFormed) (hB : B.WellFormed) :
    A.Accepts w ↔ B.Accepts w := by
  obtain ⟨g, hg⟩ := h.exists_symm hA.contains_start
  exact ⟨(h.isHomomorphism hA).accepts, (hg.isHomomorphism hB).accepts⟩

end IsIsomorphism

/-- The vertices of `A` are taken one to one to those that can be reached in `B`, with the start, all
finishes and all transitions. -/
structure IsReachablePart (f : Vertex → Vertex) (A B : Automaton) : Prop extends
    IsEmbedding f A B where
  start : f A.start = B.start
  bijOn : Set.BijOn f {q | A.contains q = true} {q | ∃ w, B.Path B.start w q}

end Automaton

end Recognizer
