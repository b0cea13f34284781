import Mathlib.Data.List.Nodup
import Mathlib.Data.Set.Function
import Recognizer.Proofs.SubsetSearch
import Recognizer.Automaton.SubsetAutomaton

/-!
# Two searches in step

Two automata may read words in the same way although their vertices differ: to every set that one
search finds there corresponds a set of the other automaton, the moves of corresponding sets
correspond, and both hold a finish or neither does. Then the second search finds the corresponding
sets in the same order (`Mirrors.discover_map`), since each expansion appends sets in the order of the
characters, whatever their members are. The numbers that stand for the sets are the same, so both
constructions give the same deterministic automaton (`Mirrors.determinize_eq`).
-/

namespace Recognizer

open Std

namespace Automaton

variable {A B : Automaton} {image : VertexSet → VertexSet} {found news subsets : List VertexSet}
variable {states next : VertexSet} {i : Nat} {c : Char}

/-- To the sets that are found in `A` correspond their images, which `B` treats in the same way. -/
structure Mirrors (image : VertexSet → VertexSet) (A B : Automaton) : Prop where
  closure_start : B.closure B.start = image (A.closure A.start)
  getElem?_moves : ∀ states ∈ A.reachableSubsets, ∀ c : Char,
    (B.moves (image states))[c]? = (A.moves states)[c]?.map image
  exists_isFinish_iff : ∀ states ∈ A.reachableSubsets,
    (∃ q ∈ image states, B.isFinish q = true) ↔ ∃ q ∈ states, A.isFinish q = true
  injOn : Set.InjOn image {states | states ∈ A.reachableSubsets}

/-- If different sets have different images, the images of the sets that are new are new. -/
theorem appendNew_map (hinj : Set.InjOn image {states | states ∈ subsets}) (hfound : found ⊆ subsets)
    (hnews : news ⊆ subsets) :
    appendNew (found.map image) (news.map image) = (appendNew found news).map image := by
  induction news generalizing found with
  | nil => rfl
  | cons states rest ih =>
    obtain ⟨hstates, hrest⟩ := List.cons_subset.1 hnews
    have hmem : image states ∈ found.map image ↔ states ∈ found := by
      rw [List.mem_map]
      constructor
      · rintro ⟨old, hold, heq⟩
        exact hinj (hfound hold) hstates heq ▸ hold
      · exact fun hold => ⟨states, hold, rfl⟩
    rw [appendNew, appendNew, List.map_cons, List.foldl_cons, List.foldl_cons]
    by_cases hold : states ∈ found
    · rw [if_pos hold, if_pos (hmem.2 hold)]
      exact ih hfound hrest
    · rw [if_neg hold, if_neg (mt hmem.1 hold), ← List.map_singleton, ← List.map_append]
      exact ih (List.append_subset.2 ⟨hfound, by simpa using hstates⟩) hrest

/-- If different sets have different images, the image of a set has the place of the set. -/
theorem idxOf_map_image (hinj : Set.InjOn image {states | states ∈ subsets}) (hnodup : subsets.Nodup)
    (hmem : states ∈ subsets) : (subsets.map image).idxOf (image states) = subsets.idxOf states := by
  have hlt : subsets.idxOf states < (subsets.map image).length := by
    rw [List.length_map]
    exact List.idxOf_lt_length_of_mem hmem
  have hplace : (subsets.map image)[subsets.idxOf states] = image states := by
    rw [List.getElem_map, List.getElem_idxOf]
  have hnodup' : (subsets.map image).Nodup :=
    hnodup.map_on fun _ hold _ hold' heq => hinj hold hold' heq
  rw [← hplace, hnodup'.idxOf_getElem]

namespace Mirrors

variable (h : Mirrors image A B)
include h

/-- The moves of the image of a set lead to the images of what its moves lead to. -/
theorem toList_moves (hstates : states ∈ A.reachableSubsets) :
    (B.moves (image states)).toList = (A.moves states).toList.map fun (c, next) => (c, image next) := by
  have hmap : B.moves (image states) = (A.moves states).map fun _ => image :=
    ExtTreeMap.ext_getElem? fun c => by rw [h.getElem?_moves states hstates c, ExtTreeMap.getElem?_map]
  rw [hmap, ExtTreeMap.toList_map]

/-- Starting from images, the search finds the images of what it finds otherwise. -/
theorem discover_map (hfound : A.discover found i ⊆ A.reachableSubsets) :
    B.discover (found.map image) i = (A.discover found i).map image := by
  fun_induction discover A found i with
  | case1 found i hi ih =>
    have hwider : appendNew found ((A.moves found[i]).toList.map Prod.snd) ⊆ A.reachableSubsets :=
      fun states hstates => hfound (prefix_discover.subset hstates)
    have hold : found ⊆ A.reachableSubsets := fun states hstates =>
      hwider (mem_appendNew.2 (Or.inl hstates))
    have hnews : (A.moves found[i]).toList.map Prod.snd ⊆ A.reachableSubsets := fun states hstates =>
      hwider (mem_appendNew.2 (Or.inr hstates))
    rw [discover, dif_pos (by simpa using hi), List.getElem_map,
      h.toList_moves (hold (List.getElem_mem hi)), List.map_map, ← ih hfound,
      ← appendNew_map h.injOn hold hnews, List.map_map]
    rfl
  | case2 found i hi => rw [discover, dif_neg (by simpa using hi)]

/-- The sets that are found in `B` are the images of those found in `A`, in the same order. -/
theorem reachableSubsets_eq : B.reachableSubsets = A.reachableSubsets.map image := by
  rw [reachableSubsets, h.closure_start, ← List.map_singleton]
  exact h.discover_map (List.Subset.refl _)

/-- The transitions between the numbers of the sets are the same. -/
theorem subsetTransitions_eq :
    B.subsetTransitions (A.reachableSubsets.map image) = A.subsetTransitions A.reachableSubsets := by
  rw [subsetTransitions, subsetTransitions, List.zipIdx_map, List.flatMap_map]
  refine List.flatMap_congr fun (states, i) hplace => ?_
  have hstates : states ∈ A.reachableSubsets := List.fst_mem_of_mem_zipIdx hplace
  dsimp only [Prod.map_apply]
  rw [h.toList_moves hstates, List.map_map]
  refine List.map_congr_left fun (c, next) hmove => ?_
  have hnext := mem_reachableSubsets_of_move hstates
    (ExtTreeMap.mem_toList_iff_getElem?_eq_some.1 hmove)
  rw [Function.comp_apply, idxOf_map_image h.injOn nodup_reachableSubsets hnext]
  rfl

/-- The same numbers stand for sets with a finish. -/
theorem subsetFinishes_eq :
    B.subsetFinishes (A.reachableSubsets.map image) = A.subsetFinishes A.reachableSubsets := by
  rw [subsetFinishes, subsetFinishes, List.zipIdx_map, List.filterMap_map]
  refine List.filterMap_congr fun (states, i) hplace => ?_
  have hfinish : (image states).toList.any B.isFinish = true ↔ states.toList.any A.isFinish = true := by
    simpa using h.exists_isFinish_iff states (List.fst_mem_of_mem_zipIdx hplace)
  exact if_congr hfinish rfl rfl

/-- Both subset constructions give the same automaton; only what its vertices stand for differs. -/
theorem determinize_eq :
    B.determinize = { A.determinize with subsets := A.determinize.subsets.map image } := by
  rw [determinize, h.reachableSubsets_eq, h.subsetTransitions_eq, h.subsetFinishes_eq,
    List.length_map]
  rfl

end Mirrors

end Automaton

end Recognizer
