import Recognizer.Automaton.Isomorphism
import Recognizer.Proofs.Correspondence
import Recognizer.Proofs.Import

/-!
# The names of vertices do not matter to the subset construction

Where an automaton is embedded into another one so that start goes to start, the two searches run in
step: to a set of vertices corresponds the set of their images. Silent steps and moves are taken to
those between images and to no others, so images of closures are closures and images of moves are moves
(`IsEmbedding.mirrors`). That the images may come in another order is of no account, for a set does not
depend on the order of its members.

An import into the automaton with the image of the start alone is such an embedding, provided that
different vertices have different images.
-/

namespace Recognizer

open Std

namespace Automaton

variable {A B : Automaton} {f : Vertex → Vertex} {p q r : Vertex} {s : Symbol} {c : Char}
variable {states next : VertexSet}

/-! ### Images of sets -/

/-- The images of the members. -/
def imageOf (f : Vertex → Vertex) (states : VertexSet) : VertexSet :=
  ExtTreeSet.ofList (states.toList.map f)

/-- The image of a set has the images of its members. -/
@[simp]
theorem mem_imageOf : r ∈ imageOf f states ↔ ∃ q ∈ states, f q = r := by
  simp [imageOf]

/-- Only the empty set has no images. -/
theorem imageOf_eq_empty_iff : imageOf f states = ∅ ↔ states = ∅ := by
  simp only [ExtTreeSet.eq_empty_iff_forall_not_mem, mem_imageOf, not_exists, not_and]
  constructor
  · intro h q hq
    exact h (f q) q hq rfl
  · intro h r q hq
    exact absurd hq (h q)

/-- Sets of vertices are known from their images if the vertices are. -/
theorem eq_of_imageOf_eq (hf : Set.InjOn f {q | A.contains q = true})
    (hstates : ∀ q ∈ states, A.contains q = true) (hnext : ∀ q ∈ next, A.contains q = true)
    (heq : imageOf f states = imageOf f next) : states = next := by
  have hsub {states next : VertexSet} (hstates : ∀ q ∈ states, A.contains q = true)
      (hnext : ∀ q ∈ next, A.contains q = true) (heq : imageOf f states = imageOf f next) :
      ∀ q ∈ states, q ∈ next := by
    intro q hq
    obtain ⟨p, hp, hpq⟩ := mem_imageOf.1 (heq ▸ mem_imageOf.2 ⟨q, hq, rfl⟩)
    exact hf (hnext p hp) (hstates q hq) hpq ▸ hp
  exact ExtTreeSet.ext_mem fun q => ⟨hsub hstates hnext heq q, hsub hnext hstates heq.symm q⟩

/-! ### Embeddings -/

namespace IsEmbedding

variable (h : IsEmbedding f A B) (hA : A.WellFormed)
include h hA

/-- Silent steps lead from an image to the images of what they lead to. -/
theorem silentlyReaches_iff (hq : A.contains q = true) :
    B.SilentlyReaches (f q) p ↔ ∃ r, A.SilentlyReaches q r ∧ f r = p := by
  simp only [← path_nil_iff]
  constructor
  · intro hpath
    obtain ⟨r, _, hr, hrp⟩ := h.exists_path hA hq hpath
    exact ⟨r, hr, hrp⟩
  · rintro ⟨r, hr, rfl⟩
    exact h.path hA hq hr

/-- The closure of an image holds the images of the closure. -/
theorem closure_eq (hq : A.contains q = true) : B.closure (f q) = imageOf f (A.closure q) :=
  ExtTreeSet.ext_mem fun p => by
    simp only [mem_imageOf, mem_closure]
    exact h.silentlyReaches_iff hA hq

/-- A character leads from the images of vertices to the images of what it leads to. -/
theorem getD_moves (hstates : ∀ q ∈ states, A.contains q = true) :
    (B.moves (imageOf f states))[c]?.getD ∅ = imageOf f ((A.moves states)[c]?.getD ∅) := by
  refine ExtTreeSet.ext_mem fun p => ?_
  simp only [mem_moves_iff, mem_imageOf]
  constructor
  · rintro ⟨_, ⟨q, hq, rfl⟩, m, hm, hreach⟩
    obtain ⟨r, hr, rfl⟩ := (h.mem_successors_iff _ _ _ (hstates q hq)).1 hm
    obtain ⟨t, ht, rfl⟩ := (h.silentlyReaches_iff hA (hA.contains_target _ _ _ hr)).1 hreach
    exact ⟨t, ⟨q, hq, r, hr, ht⟩, rfl⟩
  · rintro ⟨t, ⟨q, hq, r, hr, hreach⟩, rfl⟩
    refine ⟨f q, ⟨q, hq, rfl⟩, f r, (h.mem_successors_iff _ _ _ (hstates q hq)).2 ⟨r, hr, rfl⟩, ?_⟩
    exact (h.silentlyReaches_iff hA (hA.contains_target _ _ _ hr)).2 ⟨t, hreach, rfl⟩

variable (hB : B.WellFormed)
include hB

/-- The images of vertices have a move exactly where the vertices have one. -/
theorem getElem?_moves (hstates : ∀ q ∈ states, A.contains q = true) :
    (B.moves (imageOf f states))[c]? = (A.moves states)[c]?.map (imageOf f) := by
  refine Option.ext fun next => ?_
  rw [hB.getElem?_moves_iff, h.getD_moves hA hstates, Option.map_eq_some_iff]
  constructor
  · rintro ⟨rfl, hne⟩
    rw [ne_eq, imageOf_eq_empty_iff] at hne
    exact ⟨_, hA.getElem?_moves_iff.2 ⟨rfl, hne⟩, rfl⟩
  · rintro ⟨next, hmove, rfl⟩
    obtain ⟨hget, hne⟩ := hA.getElem?_moves_iff.1 hmove
    rw [hget, ne_eq, imageOf_eq_empty_iff]
    exact ⟨rfl, hne⟩

/-- An embedding that keeps the start and sends no two vertices to one takes the sets that are found
to their images. -/
theorem mirrors (hf : Set.InjOn f {q | A.contains q = true}) (hstart : B.start = f A.start) :
    Mirrors (imageOf f) A B where
  closure_start := by
    rw [hstart]
    exact h.closure_eq hA hA.contains_start
  getElem?_moves states hstates c :=
    h.getElem?_moves hA hB fun _ => hA.contains_of_mem_reachableSubsets hstates
  exists_isFinish_iff states hstates := by
    simp only [mem_imageOf]
    constructor
    · rintro ⟨_, ⟨q, hq, rfl⟩, hfinish⟩
      exact ⟨q, hq, (h.isFinish_iff q (hA.contains_of_mem_reachableSubsets hstates hq)).1 hfinish⟩
    · rintro ⟨q, hq, hfinish⟩
      exact ⟨f q, ⟨q, hq, rfl⟩,
        (h.isFinish_iff q (hA.contains_of_mem_reachableSubsets hstates hq)).2 hfinish⟩
  injOn states hstates next hnext heq :=
    eq_of_imageOf_eq hf (fun _ => hA.contains_of_mem_reachableSubsets hstates)
      (fun _ => hA.contains_of_mem_reachableSubsets hnext) heq

end IsEmbedding

/-! ### Renamed automata -/

/-- An automaton with its vertices renamed: it is imported where there is only the new start. -/
def rename (A : Automaton) (f : Vertex → Vertex) : Automaton :=
  (singleton (f A.start)).importAlong A f

/-- If no two vertices get one name, the automaton is embedded into the renamed one. -/
theorem isEmbedding_rename (hA : A.WellFormed) (hf : Set.InjOn f {q | A.contains q = true}) :
    IsEmbedding f A (A.rename f) where
  isFinish_iff q hq := by
    rw [rename, isFinish_importAlong, isFinish_singleton]
    constructor
    · intro hfinish
      obtain ⟨p, hp, heq⟩ := hfinish.resolve_left Bool.false_ne_true
      exact hf (hA.contains_finish p hp) hq heq ▸ hp
    · exact fun hfinish => Or.inr ⟨q, hfinish, rfl⟩
  mem_successors_iff q s r hq := by
    rw [rename, mem_successors_importAlong, or_iff_right not_mem_successors_singleton]
    constructor
    · rintro ⟨p, m, hm, heq, rfl⟩
      exact ⟨m, hf (contains_of_mem_successors hm) hq heq ▸ hm, rfl⟩
    · rintro ⟨m, hm, rfl⟩
      exact ⟨q, m, hm, rfl, rfl⟩

/-- The deterministic automaton of a renamed automaton is the same, identifiers included, and each of
its vertices stands for the images of the vertices that it stood for. -/
theorem determinize_rename (A : Automaton) (f : Vertex → Vertex) (hA : A.WellFormed)
    (hf : Set.InjOn f {q | A.contains q = true}) :
    (A.rename f).determinize.automaton = A.determinize.automaton ∧
      ∀ i, (A.rename f).determinize.subset i = (A.determinize.subset i).map (imageOf f) := by
  have hB : (A.rename f).WellFormed := (WellFormed.singleton (f A.start)).importAlong hA f
  rw [((isEmbedding_rename hA hf).mirrors hA hB hf rfl).determinize_eq]
  exact ⟨rfl, fun i => List.getElem?_map⟩

/-- A fork on one letter, whose ends are joined by a silent step. -/
def joinedFork : Automaton :=
  [⟨0, some 'a', 1⟩, ⟨0, some 'a', 2⟩, ⟨1, none, 2⟩, ⟨2, some 'b', 0⟩].foldl insertTransition
    (((singleton 0).insertVertex 1).insertVertex 2 |>.insertFinish 2)

/-- The joined fork is well-formed. -/
theorem wellFormed_joinedFork : joinedFork.WellFormed := by
  refine WellFormed.foldl_insertTransition ?_ (by decide)
  exact (((WellFormed.singleton 0).insertVertex 1).insertVertex 2).insertFinish (by decide)

/-- Renamed so that the order of its vertices is reversed, the fork has the same deterministic
automaton. -/
theorem determinize_rename_joinedFork :
    joinedFork.WellFormed ∧ Set.InjOn (9 - ·) {q | joinedFork.contains q = true} ∧
      (joinedFork.rename (9 - ·)).determinize.automaton = joinedFork.determinize.automaton ∧
      ∀ i, (joinedFork.rename (9 - ·)).determinize.subset i =
        (joinedFork.determinize.subset i).map (imageOf (9 - ·)) := by
  have hf : Set.InjOn (9 - ·) {q | joinedFork.contains q = true} := fun p _ q _ heq => by
    simpa using heq
  exact ⟨wellFormed_joinedFork, hf, determinize_rename joinedFork _ wellFormed_joinedFork hf⟩

end Automaton

end Recognizer
