import Recognizer.Automaton.Exploration
import Recognizer.Proofs.Determinization

/-!
# An exploration expands every set once, in the order of numbers

The queue of an exploration holds the numbers from that of the next expansion on, one after the
other: an expansion takes the first of them away, and each set that it meets for the first time adds
the next one at the end. So the `n`-th expansion is that of the set with number `n`, and the list of
sets after it is the one that the search has at that position. This is the invariant of the loop
(`HasExpanded`), kept by following moves (`foldl_follow`) and hence by an expansion
(`HasExpanded.exists_next?`).

The queue is empty after as many expansions as there are sets, and what has been noted on the way
makes the subset automaton (`exists_after?_length`).
-/

namespace Recognizer

open Std Automaton

/-! ### The table of sets -/

namespace SetTable

variable {table : SetTable} {states : VertexSet}

/-- Exactly the listed sets have numbers, and the numbers are their places in the list. -/
def IsConsistent (table : SetTable) : Prop :=
  ∀ (states : VertexSet) (q : Vertex), table.numbers[states]? = some q ↔
    states ∈ table.sets ∧ q = vertexAt (table.sets.idxOf states)

/-- The table without sets is consistent. -/
theorem isConsistent_empty : ({} : SetTable).IsConsistent := fun states q => by
  simp

namespace IsConsistent

/-- A set that was met before keeps its number. -/
theorem number_of_mem (h : table.IsConsistent) (hmem : states ∈ table.sets) :
    table.number states = (vertexAt (table.sets.idxOf states), false, table) := by
  rw [number, (h states _).2 ⟨hmem, rfl⟩]

/-- A new set is appended and gets the next number. -/
theorem number_of_notMem (h : table.IsConsistent) (hnew : states ∉ table.sets) :
    table.number states = (vertexAt table.sets.length, true, table.append states) := by
  have hnone : table.numbers[states]? = none :=
    Option.eq_none_iff_forall_ne_some.2 fun q hq => hnew ((h states q).1 hq).1
  rw [number, hnone]

/-- A new set may be appended to a consistent table. -/
theorem append (h : table.IsConsistent) (hnew : states ∉ table.sets) :
    (table.append states).IsConsistent := by
  intro other q
  rw [SetTable.append, ExtTreeMap.getElem?_insert]
  by_cases heq : states = other
  · subst heq
    simp [List.idxOf_append_of_notMem hnew, eq_comm]
  · have hother : other ≠ states := fun h => heq h.symm
    by_cases hmem : other ∈ table.sets
    · simp [heq, h other, hmem, List.idxOf_append_of_mem hmem]
    · simp [heq, h other, hmem, hother]

end IsConsistent

end SetTable

namespace Exploration

variable {A : Automaton} {E : Exploration} {n m : Nat} {q : Vertex} {c : Char} {next : VertexSet}
variable {subsets : List VertexSet}

/-! ### The queue -/

/-- The numbers from `n` on that are less than `m`. -/
def waiting (n m : Nat) : List Vertex :=
  (List.range' n (m - n)).map vertexAt

/-- Nothing waits between a number and itself. -/
@[simp]
theorem waiting_self : waiting n n = [] := by
  simp [waiting]

/-- The first that waits is the one with the first number. -/
theorem waiting_cons (h : n < m) : waiting n m = vertexAt n :: waiting (n + 1) m := by
  obtain ⟨k, rfl⟩ := Nat.exists_eq_add_of_lt h
  rw [waiting, waiting, show n + k + 1 - n = k + 1 by omega, show n + k + 1 - (n + 1) = k by omega,
    List.range'_succ, List.map_cons]

/-- One more that waits comes last. -/
theorem waiting_concat (h : n ≤ m) : waiting n (m + 1) = waiting n m ++ [vertexAt m] := by
  obtain ⟨k, rfl⟩ := Nat.exists_eq_add_of_le h
  rw [waiting, waiting, show n + k + 1 - n = k + 1 by omega, Nat.add_sub_cancel_left,
    List.range'_1_concat, List.map_append, List.map_singleton]

/-- The numbers agree with the list of sets, and those from `n` on are in the queue. -/
structure IsQueued (n : Nat) (E : Exploration) : Prop where
  isConsistent : E.table.IsConsistent
  le : n ≤ E.table.sets.length
  queue_eq : E.queue = waiting n E.table.sets.length

/-! ### Following moves -/

/-- A step to a known set adds a transition only. -/
theorem follow_of_mem (h : E.table.IsConsistent) (hmem : next ∈ E.table.sets) :
    follow q E (c, next) =
      { E with transitions :=
          E.transitions ++ [⟨q, some c, vertexAt (E.table.sets.idxOf next)⟩] } := by
  rw [follow, h.number_of_mem hmem]
  rfl

/-- A step to a new set adds the set, and lets it wait. -/
theorem follow_of_notMem (h : E.table.IsConsistent) (hnew : next ∉ E.table.sets) :
    follow q E (c, next) =
      { E with
        table := E.table.append next
        queue := E.queue ++ [vertexAt E.table.sets.length]
        transitions := E.transitions ++ [⟨q, some c, vertexAt E.table.sets.length⟩] } := by
  rw [follow, h.number_of_notMem hnew]
  rfl

/-- The set that a move leads to is appended if it is new. -/
theorem sets_follow (h : E.table.IsConsistent) :
    (follow q E (c, next)).table.sets = appendNew E.table.sets [next] := by
  by_cases hmem : next ∈ E.table.sets
  · rw [follow_of_mem h hmem, appendNew_singleton_of_mem hmem]
  · rw [follow_of_notMem h hmem, appendNew_singleton_of_notMem hmem]
    rfl

/-- A number is added to the queue along with its set. -/
theorem isQueued_follow (h : E.IsQueued n) : (follow q E (c, next)).IsQueued n := by
  by_cases hmem : next ∈ E.table.sets
  · rw [follow_of_mem h.isConsistent hmem]
    exact ⟨h.isConsistent, h.le, h.queue_eq⟩
  · rw [follow_of_notMem h.isConsistent hmem]
    refine ⟨h.isConsistent.append hmem, ?_, ?_⟩
    · simpa [SetTable.append] using Nat.le_succ_of_le h.le
    · simp only [SetTable.append, List.length_append, List.length_singleton]
      rw [waiting_concat h.le, h.queue_eq]

/-- The transition that is noted leads to the place of the set, also in a longer list. -/
theorem transitions_follow (h : E.table.IsConsistent)
    (hwithin : appendNew E.table.sets [next] <+: subsets) :
    (follow q E (c, next)).transitions =
      E.transitions ++ [⟨q, some c, vertexAt (subsets.idxOf next)⟩] := by
  have hplace := hwithin.idxOf_eq_of_mem (mem_appendNew.2 (Or.inr (List.mem_singleton_self next)))
  rw [← hplace]
  by_cases hmem : next ∈ E.table.sets
  · rw [follow_of_mem h hmem, appendNew_singleton_of_mem hmem]
  · rw [follow_of_notMem h hmem, appendNew_singleton_of_notMem hmem,
      List.idxOf_append_of_notMem hmem, List.idxOf_cons_self, Nat.add_zero]

/-- Moves are followed one after the other. -/
theorem foldl_follow (h : E.IsQueued n) (moves : List (Char × VertexSet))
    (hwithin : appendNew E.table.sets (moves.map Prod.snd) <+: subsets) :
    (moves.foldl (follow q) E).IsQueued n ∧
      (moves.foldl (follow q) E).table.sets = appendNew E.table.sets (moves.map Prod.snd) ∧
      (moves.foldl (follow q) E).transitions = E.transitions ++
        moves.map fun (c, next) => ⟨q, some c, vertexAt (subsets.idxOf next)⟩ := by
  induction moves generalizing E with
  | nil => exact ⟨h, rfl, (List.append_nil _).symm⟩
  | cons move rest ih =>
    obtain ⟨c, next⟩ := move
    have hsets : (follow q E (c, next)).table.sets = appendNew E.table.sets [next] :=
      sets_follow h.isConsistent
    have hrest : appendNew (follow q E (c, next)).table.sets (rest.map Prod.snd) <+: subsets := by
      rw [hsets]
      exact hwithin
    obtain ⟨hqueued, hfound, htransitions⟩ := ih (isQueued_follow h) hrest
    refine ⟨hqueued, ?_, ?_⟩
    · rw [List.foldl_cons, hfound, hsets]
      rfl
    · rw [List.foldl_cons, htransitions,
        transitions_follow h.isConsistent (prefix_appendNew.trans (hsets ▸ hrest)),
        List.append_assoc]
      rfl

/-- Following moves leaves alone what was noted before. -/
theorem noted_foldl_follow (moves : List (Char × VertexSet)) :
    (moves.foldl (follow q) E).start = E.start ∧
      (moves.foldl (follow q) E).finishes = E.finishes ∧
      (moves.foldl (follow q) E).expanded = E.expanded := by
  induction moves generalizing E with
  | nil => exact ⟨rfl, rfl, rfl⟩
  | cons move rest ih => exact ih (E := follow q E move)

/-! ### The loop -/

/-- The transitions of the set at a place, with the places of the listed sets as numbers. -/
def transitionsAt (A : Automaton) (subsets : List VertexSet) :
    VertexSet × Nat → List (Transition Vertex)
  | (states, i) => (A.moves states).toList.map fun (c, next) =>
    ⟨vertexAt i, some c, vertexAt (subsets.idxOf next)⟩

/-- The number of a set at a place, if the set holds a finish. -/
def finishAt? (A : Automaton) : VertexSet × Nat → Option Vertex
  | (states, i) => if states.toList.any A.isFinish then some (vertexAt i) else none

/-- The sets with the numbers below `n` have been expanded, in this order, and the search goes on
from the sets met so far. -/
structure HasExpanded (A : Automaton) (n : Nat) (E : Exploration) : Prop where
  isQueued : E.IsQueued n
  start_eq : E.start = vertexAt 0
  discover_eq : A.discover E.table.sets n = A.reachableSubsets
  transitions_eq : E.transitions =
    (A.reachableSubsets.zipIdx.take n).flatMap (transitionsAt A A.reachableSubsets)
  finishes_eq : E.finishes = (A.reachableSubsets.zipIdx.take n).filterMap (finishAt? A)
  expanded_eq : E.expanded = (List.range n).map vertexAt

/-- Nothing is expanded before the closure of the start, which has number zero. -/
theorem hasExpanded_initial : HasExpanded A 0 (initial A) := by
  have hinitial : initial A =
      { start := vertexAt 0, table := SetTable.append {} (A.closure A.start), queue := [vertexAt 0],
        transitions := [], finishes := [], expanded := [] } := by
    rw [initial, SetTable.isConsistent_empty.number_of_notMem List.not_mem_nil]
    rfl
  rw [hinitial]
  refine ⟨⟨SetTable.isConsistent_empty.append List.not_mem_nil, Nat.zero_le _, rfl⟩, rfl, rfl,
    rfl, rfl, rfl⟩

/-- The sets met so far are the first ones of those that the search finds. -/
theorem HasExpanded.prefix_reachableSubsets (h : HasExpanded A n E) :
    E.table.sets <+: A.reachableSubsets :=
  h.discover_eq ▸ prefix_discover

/-- While fewer sets have been expanded than there are, one is waiting. -/
theorem HasExpanded.lt_length (h : HasExpanded A n E) (hn : n < A.reachableSubsets.length) :
    n < E.table.sets.length := by
  refine Nat.lt_of_le_of_ne h.isQueued.le fun heq => ?_
  have hdone := h.discover_eq
  rw [discover, dif_neg (by omega)] at hdone
  rw [← hdone] at hn
  omega

/-- The next set to be expanded is the one at the place that is reached in the list. -/
theorem HasExpanded.take_zipIdx_succ (h : HasExpanded A n E) (hn : n < E.table.sets.length) :
    A.reachableSubsets.zipIdx.take (n + 1) =
      A.reachableSubsets.zipIdx.take n ++ [(E.table.sets[n], n)] := by
  rw [List.take_add_one, List.getElem?_zipIdx,
    List.prefix_iff_getElem?.1 h.prefix_reachableSubsets n hn]
  simp

/-- The number at the front of the queue is taken off. -/
theorem IsQueued.next?_eq (h : E.IsQueued n) (hn : n < E.table.sets.length)
    (hfits : n < UInt32.size) :
    next? A E = some ((A.moves E.table.sets[n]).toList.foldl (follow (vertexAt n))
      (visit A E (vertexAt n) (waiting (n + 1) E.table.sets.length) E.table.sets[n])) := by
  rw [next?, h.queue_eq, waiting_cons hn]
  simp only [toNat_vertexAt hfits, List.getElem?_eq_getElem hn, Option.map_some]

/-- While a set is waiting there is an expansion, and it leaves one set more expanded. -/
theorem HasExpanded.exists_next? (h : HasExpanded A n E) (hn : n < A.reachableSubsets.length)
    (hfew : A.reachableSubsets.length < UInt32.size) :
    ∃ E', next? A E = some E' ∧ HasExpanded A (n + 1) E' := by
  have hlt := h.lt_length hn
  have hsearch := h.discover_eq
  rw [discover, dif_pos hlt] at hsearch
  have hvisit : (visit A E (vertexAt n) (waiting (n + 1) E.table.sets.length)
      E.table.sets[n]).IsQueued (n + 1) := ⟨h.isQueued.isConsistent, hlt, rfl⟩
  obtain ⟨hqueued, hsets, htransitions⟩ :=
    foldl_follow (q := vertexAt n) hvisit _ (hsearch ▸ prefix_discover)
  obtain ⟨hstart, hfinishes, hexpanded⟩ := noted_foldl_follow (q := vertexAt n)
    (E := visit A E (vertexAt n) (waiting (n + 1) E.table.sets.length) E.table.sets[n])
    (A.moves E.table.sets[n]).toList
  refine ⟨_, h.isQueued.next?_eq hlt (Nat.lt_trans hn hfew), hqueued, hstart.trans h.start_eq,
    hsets ▸ hsearch, ?transitions, ?finishes, ?expanded⟩
  case transitions =>
    rw [htransitions, h.take_zipIdx_succ hlt, List.flatMap_append, List.flatMap_singleton,
      ← h.transitions_eq]
    rfl
  case finishes =>
    rw [hfinishes, h.take_zipIdx_succ hlt, List.filterMap_append, ← h.finishes_eq]
    by_cases hfinish : E.table.sets[n].toList.any A.isFinish = true
    · simp [visit, finishAt?, hfinish]
    · simp [visit, finishAt?, hfinish]
  case expanded =>
    rw [hexpanded, List.range_succ, List.map_append, ← h.expanded_eq]
    rfl

/-- As long as there are sets left, there is a state after one more expansion. -/
theorem exists_after? (hfew : A.reachableSubsets.length < UInt32.size)
    (hn : n ≤ A.reachableSubsets.length) : ∃ E, after? A n = some E ∧ HasExpanded A n E := by
  induction n with
  | zero => exact ⟨_, rfl, hasExpanded_initial⟩
  | succ n ih =>
    obtain ⟨E, hafter, hexpanded⟩ := ih (Nat.le_of_succ_le hn)
    obtain ⟨E', hnext, hexpanded'⟩ := hexpanded.exists_next? hn hfew
    refine ⟨E', ?_, hexpanded'⟩
    rw [after?, hafter, Option.bind_some, hnext]

/-- In every state that there is, as many sets have been expanded as there were expansions. -/
theorem hasExpanded_of_after? (hfew : A.reachableSubsets.length < UInt32.size)
    (h : after? A n = some E) : HasExpanded A n E := by
  induction n generalizing E with
  | zero =>
    cases h
    exact hasExpanded_initial
  | succ n ih =>
    obtain ⟨before, hbefore, hnext⟩ := Option.bind_eq_some_iff.1 h
    have hexpanded := ih hbefore
    by_cases hn : n < A.reachableSubsets.length
    · obtain ⟨E', hnext', hexpanded'⟩ := hexpanded.exists_next? hn hfew
      rw [hnext, Option.some.injEq] at hnext'
      exact hnext' ▸ hexpanded'
    · have hqueued := hexpanded.isQueued.le
      have hsets := hexpanded.prefix_reachableSubsets.length_le
      have hempty : before.queue = [] := by
        rw [hexpanded.isQueued.queue_eq, show before.table.sets.length = n by omega, waiting_self]
      rw [next?, hempty] at hnext
      cases hnext

/-- The number of a set is the place at which it is listed, in every state. -/
theorem HasExpanded.numbers_eq_some_iff (h : HasExpanded A n E)
    (hfew : A.reachableSubsets.length < UInt32.size) :
    E.table.numbers[next]? = some q ↔ E.table.sets[q.toNat]? = some next := by
  have hnodup : E.table.sets.Nodup := h.prefix_reachableSubsets.sublist.nodup nodup_reachableSubsets
  have hlength := h.prefix_reachableSubsets.length_le
  rw [h.isQueued.isConsistent]
  constructor
  · intro hnumber
    obtain ⟨hmem, rfl⟩ := hnumber
    have hlt := List.idxOf_lt_length_of_mem hmem
    rw [toNat_vertexAt (by omega), List.getElem?_eq_getElem hlt, List.getElem_idxOf]
  · intro hget
    obtain ⟨hlt, rfl⟩ := List.getElem?_eq_some_iff.1 hget
    rw [hnodup.idxOf_getElem q.toNat hlt, vertexAt_toNat]
    exact ⟨List.getElem_mem hlt, rfl⟩

/-- When all sets have been expanded, all sets are known and none is waiting. -/
theorem HasExpanded.sets_eq (h : HasExpanded A A.reachableSubsets.length E) :
    E.table.sets = A.reachableSubsets :=
  h.prefix_reachableSubsets.eq_of_length_le h.isQueued.le

/-- A further insertion of its only vertex leaves an automaton as it is. -/
theorem insertVertex_singleton : (singleton q).insertVertex q = singleton q :=
  ((WellFormed.singleton q).insertVertex q).ext (WellFormed.singleton q) rfl
    (fun r => by rw [Bool.eq_iff_iff, contains_insertVertex, contains_singleton, or_self])
    (fun _ => rfl) fun _ _ => successors_insertVertex

/-- What has been noted when all sets have been expanded makes the subset automaton. -/
theorem HasExpanded.toSubsetAutomaton_eq (h : HasExpanded A A.reachableSubsets.length E) :
    E.toSubsetAutomaton = A.determinize := by
  have hall : A.reachableSubsets.zipIdx.take A.reachableSubsets.length =
      A.reachableSubsets.zipIdx := by
    rw [← List.length_zipIdx (l := A.reachableSubsets), List.take_length]
  have hrange : List.range A.reachableSubsets.length =
      0 :: List.range' 1 (A.reachableSubsets.length - 1) := by
    have hpositive : 0 < A.reachableSubsets.length :=
      (List.getElem?_eq_some_iff.1 getElem?_reachableSubsets_zero).choose
    obtain ⟨last, hlast⟩ := Nat.exists_eq_succ_of_ne_zero (Nat.ne_of_gt hpositive)
    rw [hlast, List.range_eq_range', List.range'_succ]
    rfl
  have htransitions := h.transitions_eq
  have hfinishes := h.finishes_eq
  rw [hall] at htransitions hfinishes
  rw [toSubsetAutomaton, h.sets_eq, h.start_eq, htransitions, hfinishes, determinize, hrange,
    List.foldl_cons, insertVertex_singleton]
  rfl

/-- The queue is empty after as many expansions as there are sets. Each set has been expanded once,
in the order of the numbers, and what has been noted makes the subset automaton. -/
theorem exists_after?_length (hfew : A.determinize.subsets.length < UInt32.size) :
    ∃ E, after? A A.determinize.subsets.length = some E ∧ E.queue = [] ∧
      E.expanded.map UInt32.toNat = List.range A.determinize.subsets.length ∧
      E.toSubsetAutomaton = A.determinize := by
  obtain ⟨E, hafter, hexpanded⟩ := exists_after? (A := A) hfew (Nat.le_refl _)
  refine ⟨E, hafter, ?_, ?_, hexpanded.toSubsetAutomaton_eq⟩
  · rw [hexpanded.isQueued.queue_eq, hexpanded.sets_eq, waiting_self]
  · rw [hexpanded.expanded_eq, List.map_map]
    refine (List.map_congr_left fun n hn => ?_).trans (List.map_id _)
    exact toNat_vertexAt (Nat.lt_trans (List.mem_range.1 hn) hfew)

end Exploration

end Recognizer
