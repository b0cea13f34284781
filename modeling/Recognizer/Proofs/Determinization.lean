import Recognizer.Automaton.SubsetAutomaton
import Recognizer.Proofs.Runs
import Recognizer.Proofs.SubsetSearch

/-!
# The subset automaton tracks the sets that words read

The deterministic automaton is described through the list of found sets: its vertices are the
positions in the list, and it moves from one position to another exactly if the sets at these
positions are related by a move. Positions are identifiers only while the list is shorter than the
range of identifiers, so this bound is assumed wherever a position is turned into a vertex.

By induction on the word, extended at its end, the automaton reaches on a word the position of the
set that the word reads (`readBy_of_path`, `exists_path_of_readBy`). Languages follow.
-/

namespace Recognizer

open Std

namespace Automaton

variable {A : Automaton} {i q r : Vertex} {s : Symbol} {c : Char} {w : List Char}
variable {states next : VertexSet}

/-! ### Positions as vertices -/

/-- A position within the range of identifiers can be read off its vertex. -/
theorem toNat_vertexAt {position : Nat} (h : position < UInt32.size) :
    (vertexAt position).toNat = position :=
  UInt32.toNat_ofNat_of_lt' h

/-- A vertex is the one at its own place. -/
@[simp]
theorem vertexAt_toNat : vertexAt q.toNat = q :=
  UInt32.ofNat_toNat

/-- The listed transitions follow the moves between the listed sets. -/
theorem mem_subsetTransitions {subsets : List VertexSet} {t : Transition Vertex} :
    t ∈ A.subsetTransitions subsets ↔
      ∃ (position : Nat) (states next : VertexSet) (c : Char), subsets[position]? = some states ∧
        (A.moves states)[c]? = some next ∧
        t = ⟨vertexAt position, some c, vertexAt (subsets.idxOf next)⟩ := by
  simp only [subsetTransitions, List.mem_flatMap, List.mem_map, Prod.exists,
    List.mem_zipIdx_iff_getElem?, ExtTreeMap.mem_toList_iff_getElem?_eq_some]
  apply Iff.intro
  · intro h
    obtain ⟨states, position, hstates, c, next, hmove, rfl⟩ := h
    exact ⟨position, states, next, c, hstates, hmove, rfl⟩
  · intro h
    obtain ⟨position, states, next, c, hstates, hmove, rfl⟩ := h
    exact ⟨states, position, hstates, c, next, hmove, rfl⟩

/-- The listed finishes are the positions of the sets that hold one. -/
theorem mem_subsetFinishes {subsets : List VertexSet} :
    q ∈ A.subsetFinishes subsets ↔
      ∃ (position : Nat) (states : VertexSet), subsets[position]? = some states ∧
        q = vertexAt position ∧ ∃ p ∈ states, A.isFinish p = true := by
  simp only [subsetFinishes, List.mem_filterMap, Prod.exists, List.mem_zipIdx_iff_getElem?,
    Option.ite_none_right_eq_some, Option.some.injEq, List.any_eq_true, ExtTreeSet.mem_toList]
  apply Iff.intro
  · intro h
    obtain ⟨states, position, hstates, hfinish, rfl⟩ := h
    exact ⟨position, states, hstates, rfl, hfinish⟩
  · intro h
    obtain ⟨position, states, hstates, rfl, hfinish⟩ := h
    exact ⟨states, position, hstates, hfinish, rfl⟩

/-! ### What the subset automaton looks like -/

/-- The start has the number zero. -/
@[simp]
theorem start_determinize : A.determinize.automaton.start = 0 := by
  simp only [determinize, start_foldl_insertTransition, start_foldl_insertVertex, start_singleton]
  rfl

/-- Different positions hold different sets. -/
theorem eq_of_subset_eq (hq : A.determinize.subset q = some states)
    (hr : A.determinize.subset r = some states) : q = r := by
  obtain ⟨hlt, hget⟩ := List.getElem?_eq_some_iff.1 hq
  have hposition : q.toNat = r.toNat :=
    (List.getElem?_inj hlt nodup_reachableSubsets).1 (Eq.trans hq (Eq.symm hr))
  exact UInt32.toNat_inj.1 hposition

section Bounded

variable (hfew : A.determinize.subsets.length < UInt32.size)
include hfew

/-- The subset at a position is the one that its vertex stands for. -/
theorem subset_vertexAt {position : Nat} (h : A.determinize.subsets[position]? = some states) :
    A.determinize.subset (vertexAt position) = some states := by
  have hlt : position < A.determinize.subsets.length := (List.getElem?_eq_some_iff.1 h).choose
  rw [SubsetAutomaton.subset, toNat_vertexAt (Nat.lt_trans hlt hfew), h]

/-- Every set that is found has a vertex that stands for it. -/
theorem exists_subset_eq (h : states ∈ A.reachableSubsets) :
    ∃ q, A.determinize.subset q = some states := by
  obtain ⟨position, hposition⟩ := List.mem_iff_getElem?.1 h
  exact ⟨vertexAt position, subset_vertexAt hfew hposition⟩

/-- The vertices are the positions. -/
theorem contains_determinize :
    A.determinize.automaton.contains q = true ↔ q.toNat < A.determinize.subsets.length := by
  have hpositive : 0 < A.determinize.subsets.length :=
    (List.getElem?_eq_some_iff.1 getElem?_reachableSubsets_zero).choose
  have hsplit : A.determinize.automaton.contains q = true ↔
      (∃ t ∈ A.subsetTransitions A.determinize.subsets, q = t.source) ∨
        (∃ position ∈ List.range A.determinize.subsets.length, q = vertexAt position) ∨
        q = vertexAt 0 := by
    rw [← contains_singleton, ← contains_foldl_insertVertex, ← contains_foldl_insertTransition]
    rfl
  rw [hsplit]
  apply Iff.intro
  · intro h
    rcases h with ⟨t, ht, rfl⟩ | ⟨position, hposition, rfl⟩ | rfl
    · obtain ⟨position, states, next, c, hstates, _, rfl⟩ := mem_subsetTransitions.1 ht
      have hlt : position < A.determinize.subsets.length :=
        (List.getElem?_eq_some_iff.1 hstates).choose
      rwa [toNat_vertexAt (Nat.lt_trans hlt hfew)]
    · have hlt := List.mem_range.1 hposition
      rwa [toNat_vertexAt (Nat.lt_trans hlt hfew)]
    · exact hpositive
  · intro h
    exact Or.inr (Or.inl ⟨q.toNat, List.mem_range.2 h, vertexAt_toNat.symm⟩)

/-- The vertices are those that stand for a set. -/
theorem contains_determinize_iff_exists :
    A.determinize.automaton.contains q = true ↔ ∃ states, A.determinize.subset q = some states := by
  rw [contains_determinize hfew]
  constructor
  · exact fun h => ⟨_, List.getElem?_eq_getElem h⟩
  · rintro ⟨states, hstates⟩
    exact (List.getElem?_eq_some_iff.1 hstates).choose

/-- The automaton moves from a set to a set as the source does. -/
theorem mem_successors_determinize :
    r ∈ A.determinize.automaton.successors q s ↔
      ∃ (states next : VertexSet) (c : Char), s = some c ∧
        A.determinize.subset q = some states ∧ (A.moves states)[c]? = some next ∧
        A.determinize.subset r = some next := by
  have hsplit : r ∈ A.determinize.automaton.successors q s ↔
      ⟨q, s, r⟩ ∈ A.subsetTransitions A.determinize.subsets := by
    change r ∈ (List.foldl insertTransition _ _).successors q s ↔ _
    rw [mem_successors_foldl_insertTransition, successors_foldl_insertVertex]
    exact or_iff_left not_mem_successors_singleton
  rw [hsplit, mem_subsetTransitions]
  apply Iff.intro
  · intro h
    obtain ⟨position, states, next, c, hstates, hmove, heq⟩ := h
    obtain ⟨rfl, rfl, rfl⟩ := Transition.mk.injEq _ _ _ _ _ _ ▸ heq
    have hnext : next ∈ A.determinize.subsets :=
      mem_reachableSubsets_of_move (List.mem_of_getElem? hstates) hmove
    refine ⟨states, next, c, rfl, subset_vertexAt hfew hstates, hmove, subset_vertexAt hfew ?_⟩
    rw [List.getElem?_eq_getElem (List.idxOf_lt_length_of_mem hnext), List.getElem_idxOf]
  · intro h
    obtain ⟨states, next, c, rfl, hstates, hmove, hnext⟩ := h
    refine ⟨q.toNat, states, next, c, hstates, hmove, ?_⟩
    obtain ⟨hlt, hget⟩ := List.getElem?_eq_some_iff.1 hnext
    have hposition : A.determinize.subsets.idxOf next = r.toNat := by
      rw [← hget]
      exact nodup_reachableSubsets.idxOf_getElem r.toNat hlt
    rw [hposition, vertexAt_toNat, vertexAt_toNat]

/-- A position is a finish if its set holds one. -/
theorem isFinish_determinize :
    A.determinize.automaton.isFinish q = true ↔
      ∃ states, A.determinize.subset q = some states ∧ ∃ p ∈ states, A.isFinish p = true := by
  have hsplit : A.determinize.automaton.isFinish q = true ↔
      q ∈ A.subsetFinishes A.determinize.subsets := by
    simp [determinize, isFinish]
  rw [hsplit, mem_subsetFinishes]
  apply Iff.intro
  · intro h
    obtain ⟨position, states, hstates, rfl, hfinish⟩ := h
    exact ⟨states, subset_vertexAt hfew hstates, hfinish⟩
  · intro h
    obtain ⟨states, hstates, hfinish⟩ := h
    exact ⟨q.toNat, states, hstates, vertexAt_toNat.symm, hfinish⟩

/-- Everything the subset automaton refers to is there. -/
theorem wellFormed_determinize : A.determinize.automaton.WellFormed := by
  have hposition {q : Vertex} {states : VertexSet} (h : A.determinize.subset q = some states) :
      A.determinize.automaton.contains q = true :=
    (contains_determinize_iff_exists hfew).2 ⟨states, h⟩
  refine WellFormed.of_hasEntry ?_ (fun q hq => ?_) (fun q s r hr => ?_) (fun q s hentry => ?_)
  · rw [start_determinize]
    exact hposition (subset_vertexAt hfew getElem?_reachableSubsets_zero)
  · obtain ⟨states, hstates, _⟩ := (isFinish_determinize hfew).1 hq
    exact hposition hstates
  · obtain ⟨states, next, c, _, _, _, hnext⟩ := (mem_successors_determinize hfew).1 hr
    exact hposition hnext
  · change (List.foldl insertTransition _ _).hasEntry q s = true at hentry
    rw [hasEntry_foldl_insertTransition, hasEntry_foldl_insertVertex, hasEntry_singleton] at hentry
    obtain ⟨t, ht, rfl, rfl⟩ := hentry.resolve_right Bool.false_ne_true
    exact ⟨t.target, mem_successors_foldl_insertTransition.2 (Or.inl ht)⟩

/-- There are no silent steps between positions. -/
theorem not_mem_successors_determinize : r ∉ A.determinize.automaton.successors q none := by
  intro h
  obtain ⟨_, _, c, hc, _⟩ := (mem_successors_determinize hfew).1 h
  cases hc

/-- The subset automaton is deterministic. -/
theorem isDeterministic_determinize : A.determinize.automaton.isDeterministic = true := by
  rw [(wellFormed_determinize hfew).isDeterministic_iff]
  refine ⟨fun q r => not_mem_successors_determinize hfew, fun q s r hr r' hr' => ?_⟩
  obtain ⟨states, next, c, rfl, hstates, hmove, hnext⟩ := (mem_successors_determinize hfew).1 hr
  obtain ⟨states', next', c', hc, hstates', hmove', hnext'⟩ :=
    (mem_successors_determinize hfew).1 hr'
  cases hc
  rw [hstates, Option.some.injEq] at hstates'
  subst hstates'
  rw [hmove, Option.some.injEq] at hmove'
  subst hmove'
  exact eq_of_subset_eq hnext hnext'

/-! ### Tracking words -/

/-- Between positions, a longer word is read by one more move. -/
theorem path_concat_determinize_iff :
    A.determinize.automaton.Path q (w ++ [c]) r ↔
      ∃ m, A.determinize.automaton.Path q w m ∧
        r ∈ A.determinize.automaton.successors m (some c) := by
  rw [path_concat_iff]
  refine exists_congr fun m => and_congr_right fun _ => ⟨fun h => ?_, fun h => ?_⟩
  · obtain ⟨n, hn, hreach⟩ := h
    exact hreach.eq (fun _ _ => not_mem_successors_determinize hfew) ▸ hn
  · exact ⟨r, h, .refl⟩

/-- The set at the position reached on a word is the one that the word reads. -/
theorem readBy_of_path (h : A.determinize.automaton.Path 0 w i) :
    ∃ states, A.determinize.subset i = some states ∧ A.ReadBy w states := by
  induction w using List.reverseRecOn generalizing i with
  | nil =>
    have hi : 0 = i :=
      (path_nil_iff.1 h).eq fun _ _ => not_mem_successors_determinize hfew
    refine ⟨A.closure A.start, ?_, readBy_nil⟩
    rw [← hi]
    exact subset_vertexAt hfew getElem?_reachableSubsets_zero
  | append_singleton w c ih =>
    obtain ⟨m, hm, hstep⟩ := (path_concat_determinize_iff hfew).1 h
    obtain ⟨states, hstates, hread⟩ := ih hm
    obtain ⟨states', next, d, hd, hstates', hmove, hnext⟩ :=
      (mem_successors_determinize hfew).1 hstep
    cases hd
    rw [hstates, Option.some.injEq] at hstates'
    exact ⟨next, hnext, hread.move (hstates' ▸ hmove)⟩

/-- If a word reads a set that is not empty, the automaton reaches the position of that set. -/
theorem exists_path_of_readBy (hA : A.WellFormed) (hread : A.ReadBy w states)
    (hne : states ≠ ∅) :
    ∃ i, A.determinize.automaton.Path 0 w i ∧ A.determinize.subset i = some states := by
  induction w using List.reverseRecOn generalizing states with
  | nil =>
    rw [hread.unique readBy_nil]
    exact ⟨0, .nil 0, subset_vertexAt hfew getElem?_reachableSubsets_zero⟩
  | append_singleton w c ih =>
    obtain ⟨before, hbefore, hne', hmove⟩ := hA.exists_move_of_readBy hread hne
    obtain ⟨i, hpath, hi⟩ := ih hbefore hne'
    have hmem : states ∈ A.determinize.subsets :=
      mem_reachableSubsets_of_move (List.mem_of_getElem? hi) hmove
    obtain ⟨j, hnext⟩ := exists_subset_eq hfew hmem
    refine ⟨j, (path_concat_determinize_iff hfew).2 ⟨i, hpath, ?_⟩, hnext⟩
    exact (mem_successors_determinize hfew).2 ⟨before, states, c, rfl, hi, hmove, hnext⟩

/-- Every position is reached on some word. -/
theorem exists_path_of_contains (hA : A.WellFormed)
    (h : A.determinize.automaton.contains q = true) :
    ∃ w, A.determinize.automaton.Path 0 w q := by
  obtain ⟨states, hget⟩ := (contains_determinize_iff_exists hfew).1 h
  have hmem : states ∈ A.reachableSubsets := List.mem_of_getElem? hget
  obtain ⟨w, hread⟩ := exists_readBy_of_mem_reachableSubsets hmem
  obtain ⟨i, hpath, hi⟩ :=
    exists_path_of_readBy hfew hA hread (hA.ne_empty_of_mem_reachableSubsets hmem)
  exact ⟨w, eq_of_subset_eq hi hget ▸ hpath⟩

/-- A word that leads to some vertex of the source has a run between positions. -/
theorem exists_path_of_path (hA : A.WellFormed) (h : A.Path A.start w q) :
    ∃ i states, A.determinize.automaton.Path 0 w i ∧ A.determinize.subset i = some states ∧
      A.ReadBy w states := by
  obtain ⟨states, hread⟩ := A.exists_readBy w
  have hne : states ≠ ∅ := ExtTreeSet.ne_empty_of_mem ((hread q).2 h)
  obtain ⟨i, hpath, hi⟩ := exists_path_of_readBy hfew hA hread hne
  exact ⟨i, states, hpath, hi, hread⟩

/-- The position of a known set is a finish if the set holds one. -/
theorem isFinish_determinize_of_subset (hi : A.determinize.subset i = some states) :
    A.determinize.automaton.isFinish i = true ↔ ∃ q ∈ states, A.isFinish q = true := by
  rw [isFinish_determinize hfew, hi]
  simp

/-- The subset automaton accepts the language of the source. -/
theorem accepts_determinize_iff (hA : A.WellFormed) :
    A.determinize.automaton.Accepts w ↔ A.Accepts w := by
  simp only [Accepts, AcceptsFrom, start_determinize]
  apply Iff.intro
  · intro h
    obtain ⟨i, hfinish, hpath⟩ := h
    obtain ⟨states, hi, hread⟩ := readBy_of_path hfew hpath
    obtain ⟨q, hq, hfinish⟩ := (isFinish_determinize_of_subset hfew hi).1 hfinish
    exact ⟨q, hfinish, (hread q).1 hq⟩
  · intro h
    obtain ⟨q, hfinish, hpath⟩ := h
    obtain ⟨i, states, hpath', hi, hread⟩ := exists_path_of_path hfew hA hpath
    exact ⟨i, (isFinish_determinize_of_subset hfew hi).2 ⟨q, (hread q).2 hpath, hfinish⟩, hpath'⟩

end Bounded

end Automaton

/-- The vertices of a deterministic automaton stand for the sets that words read in a source. -/
structure SubsetAutomaton.Tracks (D : SubsetAutomaton) (A : Automaton) : Prop where
  /-- The start is vertex zero. -/
  start_eq : D.automaton.start = 0
  /-- The vertices are the positions in the list of sets. -/
  contains_iff : ∀ q, D.automaton.contains q = true ↔ q.toNat < D.subsets.length
  /-- Every vertex can be reached. -/
  exists_path : ∀ q, D.automaton.contains q = true → ∃ w, D.automaton.Path 0 w q
  /-- No set stands at two positions. -/
  nodup : D.subsets.Nodup
  /-- No vertex stands for nothing. -/
  ne_empty : ∀ states ∈ D.subsets, states ≠ ∅
  /-- There are no silent steps and no two ways to read a character. -/
  deterministic : D.automaton.isDeterministic = true
  /-- On a word that leads somewhere there is exactly one run, to the vertex that stands for all
  vertices where the word leads, and this is a finish if one of them is. -/
  run_of_path : ∀ w, (∃ q, A.Path A.start w q) →
    ∃ run i states, D.automaton.IsRun 0 run i ∧ spell run = w ∧
      (∀ run' j, D.automaton.IsRun 0 run' j → spell run' = w → run' = run ∧ j = i) ∧
      D.subset i = some states ∧
      (∀ q, q ∈ states ↔ A.Path A.start w q) ∧
      (D.automaton.isFinish i = true ↔ ∃ q ∈ states, A.isFinish q = true)
  /-- On any other word there is none. -/
  no_run : ∀ w, (¬∃ q, A.Path A.start w q) → ¬∃ run i, D.automaton.IsRun 0 run i ∧ spell run = w
  /-- Both accept the same words. -/
  accepts_iff : ∀ w, D.automaton.Accepts w ↔ A.Accepts w

namespace Automaton

/-- The subset automaton tracks its source. -/
theorem tracks_determinize (A : Automaton) (hA : A.WellFormed)
    (hfew : A.determinize.subsets.length < UInt32.size) : A.determinize.Tracks A where
  start_eq := start_determinize
  contains_iff q := contains_determinize hfew
  exists_path q := exists_path_of_contains hfew hA
  nodup := nodup_reachableSubsets
  ne_empty states := hA.ne_empty_of_mem_reachableSubsets
  deterministic := isDeterministic_determinize hfew
  run_of_path w h := by
    have hdet := isDeterministic_determinize hfew
    obtain ⟨q, hq⟩ := h
    obtain ⟨i, states, hpath, hi, hread⟩ := exists_path_of_path hfew hA hq
    obtain ⟨run, hrun, hspell⟩ := path_iff_exists_run.1 hpath
    refine ⟨run, i, states, hrun, hspell, fun run' j hrun' hspell' => ?_, hi, hread,
      isFinish_determinize_of_subset hfew hi⟩
    exact hrun'.eq_of_isDeterministic hdet hrun (hspell'.trans hspell.symm)
  no_run w h := by
    intro hrun
    obtain ⟨run, i, hrun, rfl⟩ := hrun
    obtain ⟨states, hi, hread⟩ := readBy_of_path hfew hrun.path
    have hne : states ≠ ∅ := hA.ne_empty_of_mem_reachableSubsets (List.mem_of_getElem? hi)
    rw [ne_eq, ExtTreeSet.eq_empty_iff_forall_not_mem, not_forall] at hne
    obtain ⟨q, hq⟩ := hne
    exact h ⟨q, (hread q).1 (not_not.1 hq)⟩
  accepts_iff w := accepts_determinize_iff hfew hA

/-- A silent cycle on which a letter leads back or on to the finish. -/
def forkedCycle : Automaton :=
  [⟨0, none, 1⟩, ⟨1, none, 0⟩, ⟨1, some 'a', 0⟩, ⟨1, some 'a', 2⟩].foldl insertTransition
    (((singleton 0).insertVertex 1).insertVertex 2 |>.insertFinish 2)

/-- The forked cycle is well-formed. -/
theorem wellFormed_forkedCycle : forkedCycle.WellFormed := by
  refine WellFormed.foldl_insertTransition ?_ (by decide)
  exact (((WellFormed.singleton 0).insertVertex 1).insertVertex 2).insertFinish (by decide)

/-- The subset automaton of the forked cycle tracks it. -/
theorem tracks_determinize_forkedCycle :
    forkedCycle.WellFormed ∧ forkedCycle.determinize.subsets.length < UInt32.size ∧
      forkedCycle.determinize.Tracks forkedCycle := by
  have hfew : forkedCycle.determinize.subsets.length < UInt32.size := by decide +kernel
  exact ⟨wellFormed_forkedCycle, hfew,
    tracks_determinize forkedCycle wellFormed_forkedCycle hfew⟩

end Automaton

end Recognizer
