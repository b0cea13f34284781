import Mathlib.Data.List.Induction
import Mathlib.Data.List.Nodup
import Recognizer.Automaton.Subsets
import Recognizer.Automaton.WellFormed
import Recognizer.Proofs.SilentSteps

/-!
# The search for reachable sets

A set of vertices is read by a word when it holds exactly the ends of the paths from the start that
spell the word. The first set found is read by the empty word, and a move on a character leads from
a set read by a word to one read by the longer word (`ReadBy.move`).

The search only appends, so every set keeps its place. It never repeats a set, it finds nothing that
moves do not lead to, and in the end every move from a found set leads to a found set. These four
facts are the invariant of the loop; together they say that the found sets are those that words read.
-/

namespace Recognizer

open Std

namespace Automaton

variable {A : Automaton} {p q r : Vertex} {c : Char} {w : List Char} {states next : VertexSet}

/-! ### Moves -/

/-- The set holds the ends of all paths from the start on the word, and nothing else. -/
def ReadBy (A : Automaton) (w : List Char) (states : VertexSet) : Prop :=
  ∀ q, q ∈ states ↔ A.Path A.start w q

/-- Only one set is read by a word. -/
theorem ReadBy.unique (h : A.ReadBy w states) (h' : A.ReadBy w next) : states = next :=
  ExtTreeSet.ext_mem fun q => (h q).trans (h' q).symm

/-- A set that is not empty has a member. -/
theorem exists_mem_of_ne_empty (h : states ≠ ∅) : ∃ q, q ∈ states := by
  rw [ne_eq, ExtTreeSet.eq_empty_iff_forall_not_mem, not_forall] at h
  obtain ⟨q, hq⟩ := h
  exact ⟨q, not_not.1 hq⟩

/-- The entries on characters are those of the table. -/
theorem mem_characterEntries {entry : Char × VertexSet} :
    entry ∈ A.characterEntries q ↔
      (A.outgoing[q]?.getD ∅)[some entry.1]? = some entry.2 := by
  obtain ⟨c, targets⟩ := entry
  simp only [characterEntries, List.mem_filterMap, Option.map_eq_some_iff, Prod.mk.injEq,
    ExtTreeMap.mem_toList_iff_getElem?_eq_some, Prod.exists]
  apply Iff.intro
  · intro h
    obtain ⟨s, t, hst, d, rfl, rfl, rfl⟩ := h
    exact hst
  · intro h
    exact ⟨some c, targets, h, c, rfl, rfl, rfl⟩

/-- A move leads where one step on the character and then silent steps lead. -/
theorem mem_moves_iff :
    q ∈ (A.moves states)[c]?.getD ∅ ↔
      ∃ p ∈ states, ∃ r ∈ A.successors p (some c), A.SilentlyReaches r q := by
  simp only [mem_getD_moves, List.mem_flatMap, ExtTreeSet.mem_toList, mem_characterEntries,
    mem_closureFrom]
  apply Iff.intro
  · intro h
    obtain ⟨entry, ⟨p, hp, hentry⟩, rfl, r, hr, hreach⟩ := h
    refine ⟨p, hp, r, ?_, hreach⟩
    rw [successors, hentry]
    exact hr
  · intro h
    obtain ⟨p, hp, r, hr, hreach⟩ := h
    obtain ⟨targets, htargets⟩ : ∃ targets, (A.outgoing[p]?.getD ∅)[some c]? = some targets := by
      have hentry := hasEntry_of_mem_successors hr
      rw [hasEntry_iff_getElem?_ne_none] at hentry
      exact Option.ne_none_iff_exists'.1 hentry
    refine ⟨(c, targets), ⟨p, hp, htargets⟩, rfl, r, ?_, hreach⟩
    rw [successors, htargets] at hr
    exact hr

/-- There is a move on a character exactly if some member has an entry for it. -/
theorem mem_moves_keys_iff :
    c ∈ A.moves states ↔ ∃ p ∈ states, A.hasEntry p (some c) = true := by
  rw [moves, mem_foldl_amend _ _ Prod.fst]
  simp only [ExtTreeMap.not_mem_empty, false_or, List.mem_flatMap, ExtTreeSet.mem_toList,
    mem_characterEntries, hasEntry_iff_getElem?_ne_none, Option.ne_none_iff_exists']
  apply Iff.intro
  · intro h
    obtain ⟨entry, ⟨p, hp, hentry⟩, rfl⟩ := h
    exact ⟨p, hp, entry.2, hentry⟩
  · intro h
    obtain ⟨p, hp, targets, htargets⟩ := h
    exact ⟨(c, targets), ⟨p, hp, htargets⟩, rfl⟩

/-- The first set is read by the empty word. -/
theorem readBy_nil : A.ReadBy [] (A.closure A.start) := fun q => by
  rw [mem_closure, path_nil_iff]

/-- The ends of paths on one more character. -/
theorem path_concat_iff :
    A.Path p (w ++ [c]) q ↔
      ∃ m, A.Path p w m ∧ ∃ r ∈ A.successors m (some c), A.SilentlyReaches r q := by
  rw [path_append_iff]
  simp only [path_cons_iff, path_nil_iff]
  apply Iff.intro
  · intro h
    obtain ⟨m, hm, n, hreach, r, hr, hq⟩ := h
    refine ⟨n, ?_, r, hr, hq⟩
    simpa using hm.append (path_nil_iff.2 hreach)
  · intro h
    obtain ⟨m, hm, r, hr, hq⟩ := h
    exact ⟨m, hm, m, .refl, r, hr, hq⟩

/-- A move leads from the set read by a word to the one read by the word with the character. -/
theorem ReadBy.getD_moves (h : A.ReadBy w states) :
    A.ReadBy (w ++ [c]) ((A.moves states)[c]?.getD ∅) := fun q => by
  rw [mem_moves_iff, path_concat_iff]
  simp only [h _]

/-- The set that a move leads to is read by the word with the character. -/
theorem ReadBy.move (h : A.ReadBy w states) (hmove : (A.moves states)[c]? = some next) :
    A.ReadBy (w ++ [c]) next := by
  have hnext := h.getD_moves (c := c)
  rwa [hmove, Option.getD_some] at hnext

/-- For every word there is a set that it reads. -/
theorem exists_readBy (A : Automaton) (w : List Char) : ∃ states, A.ReadBy w states := by
  induction w using List.reverseRecOn with
  | nil => exact ⟨_, readBy_nil⟩
  | append_singleton w c ih =>
    obtain ⟨states, hread⟩ := ih
    exact ⟨_, hread.getD_moves⟩

/-- A set with a move has a member with an entry for the character. -/
theorem exists_hasEntry_of_getElem?_moves (hmove : (A.moves states)[c]? = some next) :
    ∃ p ∈ states, A.hasEntry p (some c) = true := by
  rw [← mem_moves_keys_iff, ← ExtTreeMap.isSome_getElem?_iff_mem, hmove, Option.isSome_some]

/-- In a well-formed automaton there is a move exactly if it leads somewhere. -/
theorem WellFormed.getElem?_moves_iff (hA : A.WellFormed) :
    (A.moves states)[c]? = some next ↔ (A.moves states)[c]?.getD ∅ = next ∧ next ≠ ∅ := by
  apply Iff.intro
  · intro h
    refine ⟨by rw [h, Option.getD_some], fun hempty => ?_⟩
    obtain ⟨p, hp, hentry⟩ := exists_hasEntry_of_getElem?_moves h
    obtain ⟨r, hr⟩ := hA.hasEntry_iff.1 hentry
    have hnext : r ∈ (A.moves states)[c]?.getD ∅ := mem_moves_iff.2 ⟨p, hp, r, hr, .refl⟩
    rw [h, Option.getD_some, hempty] at hnext
    exact ExtTreeSet.not_mem_empty hnext
  · intro h
    obtain ⟨hget, hne⟩ := h
    cases hmove : (A.moves states)[c]? with
    | none =>
      rw [hmove] at hget
      exact absurd hget.symm hne
    | some found =>
      rw [hmove] at hget
      exact congrArg some hget

/-- If a word reads a set that is not empty, its last letter is a move from a set that is not empty
either. -/
theorem WellFormed.exists_move_of_readBy (hA : A.WellFormed) (h : A.ReadBy (w ++ [c]) states)
    (hne : states ≠ ∅) :
    ∃ before, A.ReadBy w before ∧ before ≠ ∅ ∧ (A.moves before)[c]? = some states := by
  obtain ⟨before, hbefore⟩ := A.exists_readBy w
  have hget : (A.moves before)[c]?.getD ∅ = states := hbefore.getD_moves.unique h
  have hmove : (A.moves before)[c]? = some states := hA.getElem?_moves_iff.2 ⟨hget, hne⟩
  obtain ⟨m, hm, _⟩ := exists_hasEntry_of_getElem?_moves hmove
  exact ⟨before, hbefore, ExtTreeSet.ne_empty_of_mem hm, hmove⟩

/-! ### One expansion -/

variable {found news : List VertexSet}

/-- A subset that was found is not found again. -/
theorem appendNew_singleton_of_mem (h : states ∈ found) : appendNew found [states] = found :=
  if_pos h

/-- A subset that was not found comes last. -/
theorem appendNew_singleton_of_notMem (h : states ∉ found) :
    appendNew found [states] = found ++ [states] :=
  if_neg h

/-- Appending keeps what was found in its place. -/
theorem prefix_appendNew : found <+: appendNew found news := by
  induction news generalizing found with
  | nil => exact List.prefix_rfl
  | cons states rest ih =>
    rw [appendNew, List.foldl_cons]
    split
    · exact ih
    · exact (List.prefix_append found [states]).trans ih

/-- What is appended was new, so nothing is repeated. -/
theorem nodup_appendNew (h : found.Nodup) : (appendNew found news).Nodup := by
  induction news generalizing found with
  | nil => exact h
  | cons states rest ih =>
    rw [appendNew, List.foldl_cons]
    split
    · exact ih h
    · next hnew =>
      refine ih (List.Nodup.append h (List.nodup_singleton states) ?_)
      simpa using hnew

/-- Appending adds the new sets and nothing else. -/
theorem mem_appendNew : states ∈ appendNew found news ↔ states ∈ found ∨ states ∈ news := by
  induction news generalizing found with
  | nil => simp [appendNew]
  | cons first rest ih =>
    rw [appendNew, List.foldl_cons, ← appendNew, ih, List.mem_cons]
    split
    · next hmem =>
      apply Iff.intro
      · intro h
        exact h.imp_right Or.inr
      · intro h
        rcases h with h | rfl | h
        · exact Or.inl h
        · exact Or.inl hmem
        · exact Or.inr h
    · rw [List.mem_append, List.mem_singleton, or_assoc]

/-- The sets that the moves of a set lead to. -/
theorem mem_moves_values :
    next ∈ (A.moves states).toList.map Prod.snd ↔ ∃ c : Char, (A.moves states)[c]? = some next := by
  simp [ExtTreeMap.mem_toList_iff_getElem?_eq_some]

/-! ### The whole search -/

variable {i j : Nat}

/-- The search keeps what was found in its place. -/
theorem prefix_discover : found <+: A.discover found i := by
  fun_induction discover A found i with
  | case1 found i h ih => exact prefix_appendNew.trans ih
  | case2 => exact List.prefix_rfl

/-- The search repeats nothing. -/
theorem nodup_discover (h : found.Nodup) : (A.discover found i).Nodup := by
  fun_induction discover A found i with
  | case1 found i _ ih => exact ih (nodup_appendNew h)
  | case2 => exact h

/-- What moves keep holds of everything that the search finds. -/
theorem forall_mem_discover {P : VertexSet → Prop}
    (hmove : ∀ states, P states → ∀ (c : Char) next, (A.moves states)[c]? = some next → P next)
    (hfound : ∀ states ∈ found, P states) : ∀ states ∈ A.discover found i, P states := by
  fun_induction discover A found i with
  | case1 found i h ih =>
    refine ih fun states hstates => ?_
    rcases mem_appendNew.1 hstates with hold | hnew
    · exact hfound states hold
    · obtain ⟨c, hc⟩ := mem_moves_values.1 hnew
      exact hmove _ (hfound _ (List.getElem_mem h)) c states hc
  | case2 => exact hfound

/-- Every move from a set at an expanded position leads to a set that the search finds. -/
theorem mem_discover_of_move (hij : i ≤ j) (hj : (A.discover found i)[j]? = some states)
    (hmove : (A.moves states)[c]? = some next) : next ∈ A.discover found i := by
  fun_induction discover A found i with
  | case1 found i h ih =>
    rcases Nat.eq_or_lt_of_le hij with rfl | hlt
    · have hplace : (A.discover (appendNew found ((A.moves found[i]).toList.map Prod.snd))
          (i + 1))[i]? = some found[i] :=
        List.prefix_iff_getElem?.1 (prefix_appendNew.trans prefix_discover) i h
      rw [hplace, Option.some.injEq] at hj
      subst hj
      exact prefix_discover.subset (mem_appendNew.2 (Or.inr (mem_moves_values.2 ⟨c, hmove⟩)))
    · exact ih hlt hj
  | case2 found i h =>
    have hlt : j < found.length := (List.getElem?_eq_some_iff.1 hj).choose
    omega

/-! ### The sets that are found -/

/-- The first set is the closure of the start. -/
theorem getElem?_reachableSubsets_zero : A.reachableSubsets[0]? = some (A.closure A.start) :=
  List.prefix_iff_getElem?.1 prefix_discover 0 (by simp)

/-- No set is found twice. -/
theorem nodup_reachableSubsets : A.reachableSubsets.Nodup :=
  nodup_discover (List.nodup_singleton _)

/-- Moves do not lead out of the found sets. -/
theorem mem_reachableSubsets_of_move (h : states ∈ A.reachableSubsets)
    (hmove : (A.moves states)[c]? = some next) : next ∈ A.reachableSubsets := by
  obtain ⟨j, hj⟩ := List.mem_iff_getElem?.1 h
  exact mem_discover_of_move (Nat.zero_le j) hj hmove

/-- Every set that is found is read by a word. -/
theorem exists_readBy_of_mem_reachableSubsets (h : states ∈ A.reachableSubsets) :
    ∃ w, A.ReadBy w states := by
  refine forall_mem_discover (P := fun states => ∃ w, A.ReadBy w states) ?_ ?_ states h
  · intro states hread c next hmove
    obtain ⟨w, hw⟩ := hread
    exact ⟨w ++ [c], hw.move hmove⟩
  · intro states hmem
    rw [List.mem_singleton.1 hmem]
    exact ⟨[], readBy_nil⟩

/-- Every member of a set that is found is a vertex. -/
theorem WellFormed.contains_of_mem_reachableSubsets (hA : A.WellFormed)
    (h : states ∈ A.reachableSubsets) (hq : q ∈ states) : A.contains q = true := by
  obtain ⟨w, hread⟩ := exists_readBy_of_mem_reachableSubsets h
  exact hA.contains_of_path hA.contains_start ((hread q).1 hq)

/-- In a well-formed automaton no set that is found is empty. -/
theorem WellFormed.ne_empty_of_mem_reachableSubsets (hA : A.WellFormed)
    (h : states ∈ A.reachableSubsets) : states ≠ ∅ := by
  refine forall_mem_discover (P := fun states => states ≠ ∅) ?_ ?_ states h
  · intro states _ c next hmove
    exact (hA.getElem?_moves_iff.1 hmove).2
  · intro states hmem
    rw [List.mem_singleton.1 hmem]
    exact ExtTreeSet.ne_empty_of_mem (mem_closure.2 .refl)

/-- In a well-formed automaton every set that is found has a member. -/
theorem WellFormed.exists_mem_of_mem_reachableSubsets (hA : A.WellFormed)
    (h : states ∈ A.reachableSubsets) : ∃ q, q ∈ states :=
  exists_mem_of_ne_empty (hA.ne_empty_of_mem_reachableSubsets h)

end Automaton

end Recognizer
