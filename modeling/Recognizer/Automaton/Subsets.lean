import Recognizer.Automaton.Closure
import Recognizer.Automaton.Transitions

/-!
# Reachable sets of vertices

The sets of vertices that an automaton can be in after reading a word, each closed under silent
steps. They are found breadth first from the closure of the start, following characters in
ascending order; sets without a way out on a character simply have no move on it.

The search ends because every set it finds holds targets of the source only, and there are finitely
many sets of targets: those not found yet together with those not expanded yet get fewer with each
expansion.
-/

namespace Recognizer

open Std

namespace Automaton

/-- The entries of `q` on characters, with their sets of targets. -/
def characterEntries (A : Automaton) (q : Vertex) : List (Char × VertexSet) :=
  (A.outgoing[q]?.getD ∅).toList.filterMap fun entry => entry.1.map (·, entry.2)

/-- Where a set of vertices leads to: for each character, the closure of all targets. -/
def moves (A : Automaton) (states : VertexSet) : ExtTreeMap Char VertexSet :=
  (states.toList.flatMap A.characterEntries).foldl
    (fun table entry => amend table entry.1 (· ∪ A.closureFrom entry.2.toList)) ∅

/-- The list with the sets of `news` that it lacks appended in order. -/
def appendNew (found news : List VertexSet) : List VertexSet :=
  news.foldl (fun found states => if states ∈ found then found else found ++ [states]) found

/-- The targets of all transitions. -/
def targets (A : Automaton) : List Vertex :=
  A.transitions.map Transition.target

/-- All sets with members in the list. -/
def subsetsOf : List Vertex → List VertexSet
  | [] => [∅]
  | q :: rest => subsetsOf rest ++ (subsetsOf rest).map (·.insert q)

/-- The number of sets of targets that are not in `found`. -/
def unfound (A : Automaton) (found : List VertexSet) : Nat :=
  ((subsetsOf A.targets).filter fun states => !found.contains states).length

/-! ### Every expansion makes progress -/

/-- A set of listed vertices is among the subsets of the list. -/
theorem mem_subsetsOf {qs : List Vertex} {states : VertexSet}
    (h : ∀ q ∈ states, q ∈ qs) : states ∈ subsetsOf qs := by
  induction qs generalizing states with
  | nil =>
    have hempty : states = ∅ := ExtTreeSet.ext_mem fun q => by
      simpa using fun hq => by simpa using h q hq
    simp [subsetsOf, hempty]
  | cons r rest ih =>
    rw [subsetsOf, List.mem_append, List.mem_map]
    by_cases hr : r ∈ states
    · refine Or.inr ⟨states.erase r, ih fun q hq => ?_, ExtTreeSet.ext_mem fun q => ?_⟩
      · obtain ⟨hne, hq⟩ := ExtTreeSet.mem_erase.1 hq
        have hne : q ≠ r := fun heq => hne (by simp [heq])
        exact (List.mem_cons.1 (h q hq)).resolve_left hne
      · by_cases hq : r = q
        · simpa [hq] using hq ▸ hr
        · simp [ExtTreeSet.mem_insert, ExtTreeSet.mem_erase, hq]
    · refine Or.inl (ih fun q hq => ?_)
      exact (List.mem_cons.1 (h q hq)).resolve_left fun heq => hr (heq ▸ hq)

/-- What is silently reached from targets consists of targets. -/
theorem mem_targets_of_mem_closureFrom {A : Automaton} {qs : List Vertex}
    (h : ∀ q ∈ qs, q ∈ A.targets) : ∀ q ∈ A.closureFrom qs, q ∈ A.targets := by
  refine forall_mem_closeOver (fun q _ r hr => ?_) h (by simp)
  exact List.mem_map.2 ⟨⟨q, none, r⟩, mem_transitions_iff.2 (ExtTreeSet.mem_toList.1 hr), rfl⟩

/-- Where a character leads from a vertex, there are targets only. -/
theorem mem_targets_of_mem_characterEntries {A : Automaton} {q : Vertex}
    {entry : Char × VertexSet} (h : entry ∈ A.characterEntries q) :
    ∀ r ∈ entry.2.toList, r ∈ A.targets := by
  intro r hr
  simp only [characterEntries, List.mem_filterMap, Option.map_eq_some_iff] at h
  obtain ⟨⟨symbol, states⟩, hmem, c, hc, rfl⟩ := h
  refine List.mem_map.2 ⟨⟨q, symbol, r⟩, mem_transitions_iff.2 ?_, rfl⟩
  have hstates := ExtTreeMap.mem_toList_iff_getElem?_eq_some.1 hmem
  simpa [successors, hstates] using hr

/-- A move on a character leads to the closures of the targets that members have on it. -/
theorem mem_getD_moves {A : Automaton} {states : VertexSet} {c : Char} {q : Vertex} :
    q ∈ (A.moves states)[c]?.getD ∅ ↔
      ∃ entry ∈ states.toList.flatMap A.characterEntries,
        entry.1 = c ∧ q ∈ A.closureFrom entry.2.toList := by
  have hfold := getD_foldl_amend (∅ : ExtTreeMap Char VertexSet)
    (states.toList.flatMap A.characterEntries) Prod.fst
    (fun entry => (· ∪ A.closureFrom entry.2.toList)) (P := fun m => q ∈ m)
    (R := fun entry => q ∈ A.closureFrom entry.2.toList) c
    (fun _ _ => ExtTreeSet.mem_union_iff)
  rw [moves, hfold]
  simp

/-- A set reached on a character holds targets only. -/
theorem mem_targets_of_mem_moves {A : Automaton} {states next : VertexSet} {c : Char}
    (h : (c, next) ∈ (A.moves states).toList) : ∀ q ∈ next, q ∈ A.targets := by
  intro q hq
  have hnext : (A.moves states)[c]? = some next := ExtTreeMap.mem_toList_iff_getElem?_eq_some.1 h
  have hmoves : q ∈ (A.moves states)[c]?.getD ∅ := by
    rw [hnext]
    exact hq
  obtain ⟨entry, hentry, _, hclosure⟩ := mem_getD_moves.1 hmoves
  obtain ⟨p, _, hentry⟩ := List.mem_flatMap.1 hentry
  exact mem_targets_of_mem_closureFrom (mem_targets_of_mem_characterEntries hentry) q hclosure

/-- No set that was found is dropped. -/
theorem length_le_length_appendNew (found news : List VertexSet) :
    found.length ≤ (appendNew found news).length := by
  induction news generalizing found with
  | nil => exact Nat.le_refl _
  | cons states rest ih =>
    refine Nat.le_trans ?_ (ih _)
    dsimp only
    split <;> simp

/-- Appending new sets of targets takes as many off the sets not found. -/
theorem unfound_appendNew_le (A : Automaton) (found : List VertexSet) {news : List VertexSet}
    (hnews : ∀ states ∈ news, states ∈ subsetsOf A.targets) :
    A.unfound (appendNew found news) + (appendNew found news).length
      ≤ A.unfound found + found.length := by
  induction news generalizing found with
  | nil => exact Nat.le_refl _
  | cons states rest ih =>
    have hrest := fun s hs => hnews s (List.mem_cons_of_mem _ hs)
    rw [appendNew, List.foldl_cons]
    by_cases hmem : states ∈ found
    · rw [if_pos hmem]
      exact ih _ hrest
    · rw [if_neg hmem]
      refine Nat.le_trans (ih _ hrest) ?_
      have hlt : A.unfound (found ++ [states]) < A.unfound found := by
        have hsub : ((subsetsOf A.targets).filter fun s => !(found ++ [states]).contains s) =
            ((subsetsOf A.targets).filter fun s => !found.contains s).filter (· != states) := by
          rw [List.filter_filter]
          refine List.filter_congr fun s _ => ?_
          by_cases hs : s = states <;> simp [hs]
        rw [unfound, hsub]
        refine List.length_filter_lt_length_iff_exists.2 ⟨states, ?_, by simp⟩
        exact List.mem_filter.2 ⟨hnews states List.mem_cons_self, by simpa using hmem⟩
      rw [List.length_append, List.length_singleton]
      omega

/-! ### The search -/

/-- Expand the set at position `i` and those after it, appending the sets that are new. -/
def discover (A : Automaton) (found : List VertexSet) (i : Nat) : List VertexSet :=
  if h : i < found.length then
    A.discover (appendNew found ((A.moves found[i]).toList.map Prod.snd)) (i + 1)
  else found
termination_by A.unfound found + (found.length - i)
decreasing_by
  have hnews : ∀ states ∈ (A.moves found[i]).toList.map Prod.snd,
      states ∈ subsetsOf A.targets := by
    intro states hstates
    obtain ⟨⟨c, next⟩, hmem, rfl⟩ := List.mem_map.1 hstates
    exact mem_subsetsOf (mem_targets_of_mem_moves hmem)
  have hle := unfound_appendNew_le A found hnews
  have hlength := length_le_length_appendNew found ((A.moves found[i]).toList.map Prod.snd)
  omega

/-- The sets of vertices reachable from the closure of the start, in the order of discovery. -/
def reachableSubsets (A : Automaton) : List VertexSet :=
  A.discover [A.closure A.start] 0

end Automaton

end Recognizer
