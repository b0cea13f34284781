import Recognizer.Automaton.Isomorphism
import Recognizer.Proofs.Import

/-!
# Disjoint imports keep both automata apart

An import along an injective map that avoids the vertices of the receiver puts both automata side by
side: each of them is embedded in the result, the receiver where it was and the imported one along the
map, so no vertex accepts more or less than before.

A disjoint import is of this kind. Its offset is greater than any vertex of the receiver. Only the sum
for the greatest imported vertex is checked, which is enough, because neither a vertex nor a finish nor
a target exceeds it (`importUnder_disjoint_separates`).
-/

namespace Recognizer

namespace Automaton

variable {A B C : Automaton} {f : Vertex → Vertex} {n p q r : Vertex} {s : Symbol}

/-! ### Imports along maps that keep apart -/

/-- The map sends no two vertices of `B` to one, and none to a vertex of `A`. -/
structure KeepsApart (f : Vertex → Vertex) (A B : Automaton) : Prop where
  injOn : Set.InjOn f {q | B.contains q = true}
  not_contains : ∀ q, B.contains q = true → A.contains (f q) = false

namespace KeepsApart

variable (h : KeepsApart f A B) (hB : B.WellFormed)
include h hB

/-- Nothing is added to the vertices of the receiver. -/
theorem isEmbedding_receiver : IsEmbedding id A (A.importAlong B f) where
  isFinish_iff q hq := by
    rw [id_eq, isFinish_importAlong]
    apply or_iff_left
    intro himported
    obtain ⟨p, hp, rfl⟩ := himported
    rw [h.not_contains p (hB.contains_finish p hp)] at hq
    cases hq
  mem_successors_iff q s r hq := by
    rw [id_eq, mem_successors_importAlong]
    simp only [id_eq, exists_eq_right]
    apply or_iff_left
    intro himported
    obtain ⟨p, m, hm, rfl, _⟩ := himported
    rw [h.not_contains p (contains_of_mem_successors hm)] at hq
    cases hq

/-- Nothing is added to the images of the imported vertices. -/
theorem isEmbedding_imported (hA : A.WellFormed) : IsEmbedding f B (A.importAlong B f) where
  isFinish_iff q hq := by
    rw [isFinish_importAlong]
    constructor
    · intro hfinish
      rcases hfinish with hold | ⟨p, hp, heq⟩
      · have hcontains := hA.contains_finish _ hold
        rw [h.not_contains q hq] at hcontains
        cases hcontains
      · rwa [← h.injOn (hB.contains_finish p hp) hq heq]
    · intro hfinish
      exact Or.inr ⟨q, hfinish, rfl⟩
  mem_successors_iff q s r hq := by
    rw [mem_successors_importAlong]
    constructor
    · intro hr
      rcases hr with hold | ⟨p, m, hm, heq, hr⟩
      · have hcontains := contains_of_mem_successors hold
        rw [h.not_contains q hq] at hcontains
        cases hcontains
      · rw [h.injOn (contains_of_mem_successors hm) hq heq] at hm
        exact ⟨m, hm, hr⟩
    · intro hr
      obtain ⟨m, hm, hr⟩ := hr
      exact Or.inr ⟨q, m, hm, rfl, hr⟩

end KeepsApart

/-! ### Shifts past the greatest vertex -/

/-- A shift past the greatest vertex of the receiver keeps vertices apart. -/
theorem keepsApart_add (hoffset : A.greatestVertex.toNat < n.toNat)
    (hfits : B.greatestVertex.toNat + n.toNat < UInt32.size) : KeepsApart (· + n) A B where
  injOn p hp q hq heq := by
    have hvalues := congrArg UInt32.toNat heq
    rw [toNat_add_of_contains hfits hp, toNat_add_of_contains hfits hq] at hvalues
    exact UInt32.toNat_inj.mp (Nat.add_right_cancel hvalues)
  not_contains q hq := by
    rw [Bool.eq_false_iff]
    intro hold
    have hle := toNat_le_greatestVertex hold
    rw [toNat_add_of_contains hfits hq] at hle
    omega

/-- `C` consists of `A` and of `B` moved up by `n`, and neither part has to do with the other. -/
structure Separates (C A B : Automaton) (n : Vertex) : Prop where
  /-- The offset is the number after the greatest vertex of the receiver. -/
  toNat_offset : n.toNat = A.greatestVertex.toNat + 1
  /-- Neither for a vertex nor for a finish or a target does the sum leave the range. -/
  toNat_add : ∀ q, (B.contains q = true ∨ B.isFinish q = true ∨ ∃ p s, q ∈ B.successors p s) →
    (q + n).toNat = q.toNat + n.toNat
  start_eq : C.start = A.start
  contains_iff : ∀ q, C.contains q = true ↔ A.contains q = true ∨ ∃ p, B.contains p = true ∧ p + n = q
  not_contains_add : ∀ p, B.contains p = true → A.contains (p + n) = false
  acceptsFrom_iff : ∀ q w, A.contains q = true → (C.AcceptsFrom q w ↔ A.AcceptsFrom q w)
  acceptsFrom_add_iff : ∀ q w, B.contains q = true → (C.AcceptsFrom (q + n) w ↔ B.AcceptsFrom q w)

/-- After a disjoint import that succeeds, the vertices of the receiver accept what they accepted, the
imported vertices are shifted by the number after the greatest one and accept what they accepted, and
no shift wraps around. -/
theorem importUnder_disjoint_separates (A B : Automaton) (hA : A.WellFormed) (hB : B.WellFormed)
    (n : Vertex) (C : Automaton) (h : A.importUnder B .disjoint = .ok (n, C)) :
    C.Separates A B n := by
  rw [importUnder_disjoint_eq] at h
  split at h
  · next hreceiver =>
    split at h
    · next himported =>
      cases h
      have hoffset : (A.greatestVertex + 1).toNat = A.greatestVertex.toNat + 1 :=
        Vertex.toNat_add hreceiver
      rw [← hoffset] at himported
      have hapart := keepsApart_add (A := A) (by omega) himported
      constructor
      · exact hoffset
      · intro q hq
        apply toNat_add_of_contains himported
        rcases hq with hvertex | hfinish | ⟨p, s, htarget⟩
        · exact hvertex
        · exact hB.contains_finish q hfinish
        · exact hB.contains_target p s q htarget
      · exact start_importAlong
      · exact fun q => contains_importAlong
      · exact hapart.not_contains
      · exact fun q w hq => (hapart.isEmbedding_receiver hB).acceptsFrom_iff hA hq
      · exact fun q w hq => (hapart.isEmbedding_imported hB hA).acceptsFrom_iff hB hq
    · cases h
  · cases h

/-- A step on `c` between two vertices that are not neighbours. -/
def wideStep (start finish : Vertex) (c : Char) : Automaton :=
  [⟨start, some c, finish⟩].foldl insertTransition
    (((singleton start).insertVertex finish).insertFinish finish)

/-- A wide step is well-formed. -/
theorem wellFormed_wideStep {start finish : Vertex} {c : Char} :
    (wideStep start finish c).WellFormed := by
  have hvertices : ((singleton start).insertVertex finish).WellFormed :=
    (WellFormed.singleton start).insertVertex finish
  refine WellFormed.foldl_insertTransition (hvertices.insertFinish ?_) ?_
  · simp
  · simp

/-- Beside a step from 5 to 1, a step from 0 to 3 becomes one from 6 to 9, which accepts just what it
did. -/
theorem importUnder_disjoint_separates_wideStep :
    (wideStep 5 1 'a').WellFormed ∧ (wideStep 0 3 'b').WellFormed ∧
      ∃ C, (wideStep 5 1 'a').importUnder (wideStep 0 3 'b') .disjoint = .ok (6, C) ∧
        C.Separates (wideStep 5 1 'a') (wideStep 0 3 'b') 6 ∧ C.AcceptsFrom 6 ['b'] := by
  have hA : (wideStep 5 1 'a').greatestVertex = 5 :=
    greatestVertex_eq (by decide +kernel) (by decide +kernel)
  have hB : (wideStep 0 3 'b').greatestVertex = 3 :=
    greatestVertex_eq (by decide +kernel) (by decide +kernel)
  have himport := importUnder_disjoint_eq_ok (A := wideStep 5 1 'a') (B := wideStep 0 3 'b')
    (by rw [hA]; decide) (by rw [hA, hB]; decide)
  rw [hA] at himport
  have hseparates := importUnder_disjoint_separates _ _ wellFormed_wideStep wellFormed_wideStep _ _ himport
  have haccepts : (wideStep 0 3 'b').AcceptsFrom 0 ['b'] :=
    ⟨3, by decide +kernel, .single (s := some 'b') (by decide +kernel)⟩
  exact ⟨wellFormed_wideStep, wellFormed_wideStep, _, himport, hseparates,
    (hseparates.acceptsFrom_add_iff 0 ['b'] (by decide +kernel)).2 haccepts⟩

end Automaton

end Recognizer
