import Recognizer.Automaton.Completion
import Recognizer.Automaton.Path
import Recognizer.Proofs.Import

/-!
# Completion adds a dead vertex

The sink is the number after the greatest vertex, hence none of the old vertices. It is no finish,
and no transition leaves it for another vertex, so nothing is accepted from it. The redirected moves
lead to the sink only, which is why no old vertex accepts more or less than before
(`acceptsFrom_withSink_iff`).
-/

namespace Recognizer

open Std

namespace Automaton

variable {A : Automaton} {characters : Alphabet} {p q r : Vertex} {s : Symbol} {c : Char}
variable {w : List Char}

/-- The automaton with a sink after its greatest vertex, where all missing moves go. -/
def withSink (A : Automaton) (characters : Alphabet) : Automaton :=
  (A.insertVertex (A.greatestVertex + 1)).redirect (A.missingMoves characters) characters
    (A.greatestVertex + 1)

/-- Completion changes nothing, adds a sink, or runs out of identifiers. -/
theorem totalizeOver_eq :
    A.totalizeOver characters =
      if A.missingMoves characters = [] then .ok (none, A)
      else if A.greatestVertex.toNat + 1 < UInt32.size then
        .ok (some (A.greatestVertex + 1), A.withSink characters)
      else .error (.identifierOverflow A.greatestVertex 1) := by
  rw [totalizeOver, withSink]
  cases A.missingMoves characters with
  | nil => rfl
  | cons move rest =>
    simp only [if_neg (List.cons_ne_nil move rest), addFreshVertex_eq]
    split <;> rfl

/-- If an identifier is left, completion succeeds. -/
theorem totalizeOver_eq_ok (hfits : A.greatestVertex.toNat + 1 < UInt32.size) :
    A.totalizeOver characters =
      .ok (if A.missingMoves characters = [] then (none, A)
        else (some (A.greatestVertex + 1), A.withSink characters)) := by
  rw [totalizeOver_eq, if_pos hfits, apply_ite Except.ok]

/-! ### The moves and the sink -/

/-- The missing moves are those of a vertex on a character without entry. -/
theorem mem_missingMoves :
    (q, c) ∈ A.missingMoves characters ↔
      A.contains q = true ∧ c ∈ characters ∧ A.hasEntry q (some c) = false := by
  simp only [missingMoves, List.mem_flatMap, List.mem_map, List.mem_filter, Prod.exists,
    ExtTreeMap.mem_toList_iff_getElem?_eq_some, ExtTreeSet.mem_toList, Prod.mk.injEq,
    Bool.not_eq_true']
  apply Iff.intro
  · intro h
    obtain ⟨q, out, hout, c, ⟨hc, hentry⟩, rfl, rfl⟩ := h
    refine ⟨contains_iff_getElem?_ne_none.2 (by simp [hout]), hc, ?_⟩
    rw [hasEntry, hout]
    exact hentry
  · intro h
    obtain ⟨hq, hc, hentry⟩ := h
    obtain ⟨out, hout⟩ := Option.ne_none_iff_exists'.1 (contains_iff_getElem?_ne_none.1 hq)
    rw [hasEntry, hout] at hentry
    exact ⟨q, out, hout, c, ⟨hc, hentry⟩, rfl, rfl⟩

/-- The number after the greatest vertex is no vertex. -/
theorem not_contains_greatestVertex_add_one (hfits : A.greatestVertex.toNat + 1 < UInt32.size) :
    ¬ A.contains (A.greatestVertex + 1) = true := by
  intro h
  have hle := toNat_le_greatestVertex h
  have hsucc : (A.greatestVertex + 1).toNat = A.greatestVertex.toNat + 1 := Vertex.toNat_add hfits
  omega

/-- The sink leaves the start as it is. -/
@[simp]
theorem start_withSink : (A.withSink characters).start = A.start :=
  start_foldl_insertTransition

/-- The sink adds no finish. -/
@[simp]
theorem isFinish_withSink : (A.withSink characters).isFinish q = A.isFinish q := by
  rw [isFinish, isFinish, withSink, redirect, finishes_foldl_insertTransition]
  rfl

/-- Only the sink is added to the vertices. -/
theorem contains_withSink :
    (A.withSink characters).contains q = true ↔
      q = A.greatestVertex + 1 ∨ A.contains q = true := by
  rw [withSink, redirect, contains_foldl_insertTransition, contains_insertVertex]
  refine or_iff_right_of_imp fun h => ?_
  obtain ⟨t, ht, rfl⟩ := h
  rcases List.mem_append.1 ht with ht | ht
  · obtain ⟨⟨p, c⟩, hmove, rfl⟩ := List.mem_map.1 ht
    exact Or.inr (mem_missingMoves.1 hmove).1
  · obtain ⟨c, _, rfl⟩ := List.mem_map.1 ht
    exact Or.inl rfl

/-- What is added to the transitions leads to the sink. -/
theorem mem_successors_withSink :
    r ∈ (A.withSink characters).successors q s ↔
      r ∈ A.successors q s ∨ r = A.greatestVertex + 1 ∧ ∃ c ∈ characters, s = some c ∧
        (q = A.greatestVertex + 1 ∨ A.contains q = true ∧ A.hasEntry q (some c) = false) := by
  rw [withSink, redirect, mem_successors_foldl_insertTransition, successors_insertVertex, or_comm]
  simp only [List.mem_append, List.mem_map, Prod.exists, mem_missingMoves, ExtTreeSet.mem_toList,
    Transition.mk.injEq]
  apply or_congr_right
  apply Iff.intro
  · intro h
    rcases h with ⟨p, c, ⟨hp, hc, hentry⟩, rfl, rfl, rfl⟩ | ⟨c, hc, rfl, rfl, rfl⟩
    · exact ⟨rfl, c, hc, rfl, Or.inr ⟨hp, hentry⟩⟩
    · exact ⟨rfl, c, hc, rfl, Or.inl rfl⟩
  · intro h
    obtain ⟨rfl, c, hc, rfl, rfl | ⟨hq, hentry⟩⟩ := h
    · exact Or.inr ⟨c, hc, rfl, rfl, rfl⟩
    · exact Or.inl ⟨q, c, ⟨hq, hc, hentry⟩, rfl, rfl, rfl⟩

/-- What leads to the sink leads between vertices. -/
theorem WellFormed.withSink (hA : A.WellFormed) (characters : Alphabet) :
    (A.withSink characters).WellFormed := by
  refine (hA.insertVertex _).foldl_insertTransition fun t ht => ?_
  rcases List.mem_append.1 ht with ht | ht
  · obtain ⟨⟨q, c⟩, hmove, rfl⟩ := List.mem_map.1 ht
    simp [(mem_missingMoves.1 hmove).1]
  · obtain ⟨c, _, rfl⟩ := List.mem_map.1 ht
    simp

/-! ### Languages -/

section Language

variable (hA : A.WellFormed) (hfits : A.greatestVertex.toNat + 1 < UInt32.size)

include hfits

/-- No path leaves the sink. -/
theorem eq_of_path_sink (h : (A.withSink characters).Path (A.greatestVertex + 1) w p) :
    p = A.greatestVertex + 1 := by
  generalize hq : A.greatestVertex + 1 = q at h ⊢
  induction h with
  | nil => rfl
  | step first _ ih =>
    rcases mem_successors_withSink.1 first with hold | ⟨hr, _⟩
    · have hsink := contains_of_mem_successors hold
      exact absurd (hq ▸ hsink) (not_contains_greatestVertex_add_one hfits)
    · exact (ih hr.symm).trans (hr.trans hq)

include hA

/-- A path from an old vertex is an old path, unless it leads to the sink. -/
theorem path_of_path_withSink (hq : A.contains q = true)
    (h : (A.withSink characters).Path q w p) : A.Path q w p ∨ p = A.greatestVertex + 1 := by
  induction h with
  | nil q => exact Or.inl (Path.nil q)
  | step first rest ih =>
    rcases mem_successors_withSink.1 first with hold | ⟨rfl, _⟩
    · exact (ih (hA.contains_target _ _ _ hold)).imp_left (Path.step hold)
    · exact Or.inr (eq_of_path_sink hfits rest)

/-- The sink is no finish. -/
theorem isFinish_sink : A.isFinish (A.greatestVertex + 1) = false := by
  rw [Bool.eq_false_iff]
  intro hfinish
  exact not_contains_greatestVertex_add_one hfits (hA.contains_finish _ hfinish)

/-- Nothing is accepted from the sink. -/
theorem not_acceptsFrom_sink : ¬ (A.withSink characters).AcceptsFrom (A.greatestVertex + 1) w := by
  intro h
  obtain ⟨p, hp, hpath⟩ := h
  rw [eq_of_path_sink hfits hpath, isFinish_withSink, isFinish_sink hA hfits] at hp
  cases hp

/-- Every old vertex accepts the same words as before. -/
theorem acceptsFrom_withSink_iff (hq : A.contains q = true) :
    (A.withSink characters).AcceptsFrom q w ↔ A.AcceptsFrom q w := by
  apply Iff.intro
  · intro h
    obtain ⟨p, hp, hpath⟩ := h
    rw [isFinish_withSink] at hp
    rcases path_of_path_withSink hA hfits hq hpath with hold | rfl
    · exact ⟨p, hp, hold⟩
    · rw [isFinish_sink hA hfits] at hp
      cases hp
  · intro h
    obtain ⟨p, hp, hpath⟩ := h
    refine ⟨p, isFinish_withSink.trans hp, hpath.mono fun _ _ _ hr => ?_⟩
    exact mem_successors_withSink.2 (Or.inl hr)

end Language

end Automaton

end Recognizer
