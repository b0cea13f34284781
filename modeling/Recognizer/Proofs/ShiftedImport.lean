import Recognizer.Interchange.Automaton
import Recognizer.Proofs.Atomicity
import Recognizer.Proofs.Overlay

/-!
# Imports with a shift

Before an import with a shift, only the shift of the greatest vertex is checked; everything that
occurs in the imported automaton is then shifted by an addition of words. A vertex does not exceed
the greatest one, so its shift is that of numbers. The same goes for targets and finishes if these
are vertices. But an automaton that was read as it is may have a target or a finish beyond its
greatest vertex, and such a one can wrap around without a report.

Main statement: `importShifted_outcome`, which says when an import with a shift is exact. It is for
all well-formed automata.
-/

namespace Recognizer

/-! ### Additions of words and of numbers -/

section Words

variable {q n : Vertex}

/-- An addition of words that leaves their range wraps around once. -/
theorem Vertex.toNat_add_add_size (h : UInt32.size ≤ q.toNat + n.toNat) :
    (q + n).toNat + UInt32.size = q.toNat + n.toNat := by
  have hq : q.toNat < UInt32.size := q.toNat_lt_size
  have hn : n.toNat < UInt32.size := n.toNat_lt_size
  rw [UInt32.toNat_add]
  change (q.toNat + n.toNat) % UInt32.size + UInt32.size = q.toNat + n.toNat
  rw [Nat.mod_eq_sub_mod h, Nat.mod_eq_of_lt (by omega), Nat.sub_add_cancel h]

/-- An addition of words is one of numbers exactly if the sum is in range. -/
theorem Vertex.toNat_add_iff :
    (q + n).toNat = q.toNat + n.toNat ↔ q.toNat + n.toNat < UInt32.size := by
  refine ⟨fun h => ?_, Vertex.toNat_add⟩
  rw [← h]
  exact (q + n).toNat_lt_size

end Words

namespace Automaton

variable {A B : Automaton} {q n : Vertex}

/-! ### What occurs in an automaton -/

/-- The identifier `q` is a vertex, a finish or a target. -/
def Occurs (B : Automaton) (q : Vertex) : Prop :=
  B.contains q = true ∨ B.isFinish q = true ∨ ∃ p s, q ∈ B.successors p s

/-- Only vertices occur in a well-formed automaton. -/
theorem WellFormed.contains_of_occurs (hB : B.WellFormed) (hq : B.Occurs q) :
    B.contains q = true := by
  rcases hq with hvertex | hfinish | htarget
  · exact hvertex
  · exact hB.contains_finish q hfinish
  · obtain ⟨p, s, htarget⟩ := htarget
    exact hB.contains_target p s q htarget

/-! ### Exact imports -/

/-- The import of `B` into `A` with the shift `n` is exact: it fails and leaves `A` as it was, or it
gives the union along the shift, and this takes whatever occurs in `B` to the sum of the numbers. -/
def ImportsExactly (A B : Automaton) (n : Vertex) : Prop :=
  (∃ q, (Update.importShifted B n).run A = .error (.identifierOverflow q n) A) ∨
    ∃ C, (Update.importShifted B n).run A = .ok () C ∧ C.IsUnionAlong (· + n) A B ∧
      ∀ q, B.Occurs q → (q + n).toNat = q.toNat + n.toNat

/-- Where the greatest vertex cannot be shifted, the import fails and changes nothing. -/
theorem run_importShifted_eq_error (h : UInt32.size ≤ B.greatestVertex.toNat + n.toNat) :
    (Update.importShifted B n).run A = .error (.identifierOverflow B.greatestVertex n) A := by
  rw [run_importShifted, importShifted_eq, if_neg (by omega)]
  rfl

/-- Where the greatest vertex can be shifted, the import succeeds. -/
theorem run_importShifted_eq_ok (h : B.greatestVertex.toNat + n.toNat < UInt32.size) :
    (Update.importShifted B n).run A = .ok () (A.importAlong B (· + n)) := by
  rw [run_importShifted, importShifted_eq, if_pos h]
  rfl

/-- Of what occurs, only what lies beyond the greatest vertex can wrap around. -/
theorem shift_exact_or_wraps (hfits : B.greatestVertex.toNat + n.toNat < UInt32.size) :
    (q + n).toNat = q.toNat + n.toNat ∨
      B.greatestVertex < q ∧ (q + n).toNat + UInt32.size = q.toNat + n.toNat := by
  by_cases hq : q.toNat + n.toNat < UInt32.size
  · exact Or.inl (Vertex.toNat_add hq)
  · refine Or.inr ⟨UInt32.lt_iff_toNat_lt.2 ?_, Vertex.toNat_add_add_size ?_⟩ <;> omega

/-- An import with a shift is exact if it fails, and else exactly if all that occurs can be shifted.
-/
theorem importsExactly_iff :
    A.ImportsExactly B n ↔ UInt32.size ≤ B.greatestVertex.toNat + n.toNat ∨
      ∀ q, B.Occurs q → q.toNat + n.toNat < UInt32.size := by
  by_cases hfits : B.greatestVertex.toNat + n.toNat < UInt32.size
  · rw [ImportsExactly, run_importShifted_eq_ok hfits, or_iff_right (by simp),
      or_iff_right (by omega)]
    constructor
    · rintro ⟨C, _, _, hexact⟩ q hq
      exact Vertex.toNat_add_iff.1 (hexact q hq)
    · intro hrange
      exact ⟨_, rfl, isUnionAlong_importAlong, fun q hq => Vertex.toNat_add_iff.2 (hrange q hq)⟩
  · have hoverflow : UInt32.size ≤ B.greatestVertex.toNat + n.toNat := by omega
    exact iff_of_true (Or.inl ⟨_, run_importShifted_eq_error hoverflow⟩) (Or.inl hoverflow)

/-- Imports of well-formed automata are exact. -/
theorem WellFormed.importsExactly (hB : B.WellFormed) : A.ImportsExactly B n := by
  rw [importsExactly_iff, or_iff_not_imp_left, Nat.not_le]
  intro hfits q hq
  exact Vertex.toNat_add_iff.1 (toNat_add_of_contains hfits (hB.contains_of_occurs hq))

/-- An import with a shift fails exactly if the greatest imported vertex cannot be shifted, and then
changes nothing. Else it gives the union along the shift; this is an addition of numbers, except for
targets and finishes beyond the greatest vertex, which wrap around if they leave the range. Hence
it is exact unless it succeeds while something that occurs cannot be shifted. If the imported
automaton is well-formed, it is always exact. -/
theorem importShifted_outcome (A B : Automaton) (n : Vertex) :
    (UInt32.size ≤ B.greatestVertex.toNat + n.toNat →
      (Update.importShifted B n).run A = .error (.identifierOverflow B.greatestVertex n) A) ∧
    (B.greatestVertex.toNat + n.toNat < UInt32.size →
      ∃ C, (Update.importShifted B n).run A = .ok () C ∧ C.IsUnionAlong (· + n) A B ∧
        ∀ q, B.Occurs q → (q + n).toNat = q.toNat + n.toNat ∨
          B.greatestVertex < q ∧ (q + n).toNat + UInt32.size = q.toNat + n.toNat) ∧
    (A.ImportsExactly B n ↔ UInt32.size ≤ B.greatestVertex.toNat + n.toNat ∨
      ∀ q, B.Occurs q → q.toNat + n.toNat < UInt32.size) ∧
    (B.WellFormed → A.ImportsExactly B n) :=
  ⟨run_importShifted_eq_error,
    fun hfits => ⟨_, run_importShifted_eq_ok hfits, isUnionAlong_importAlong,
      fun _ _ => shift_exact_or_wraps hfits⟩,
    importsExactly_iff, WellFormed.importsExactly⟩

/-- One vertex with a transition to the greatest identifier, which is not a vertex. -/
def danglingStep : Automaton :=
  (singleton 0).insertTransition ⟨0, some 'a', 4294967295⟩

/-- The only vertex of `danglingStep` can be shifted by one. -/
theorem fits_danglingStep :
    danglingStep.greatestVertex.toNat + (1 : Vertex).toNat < UInt32.size := by
  have hgreatest : danglingStep.greatestVertex = 0 :=
    greatestVertex_eq (by decide +kernel) (by decide +kernel)
  rw [hgreatest]
  decide

/-- The greatest identifier occurs in `danglingStep`. -/
theorem occurs_danglingStep : danglingStep.Occurs 4294967295 :=
  Or.inr (Or.inr ⟨0, some 'a', by decide +kernel⟩)

/-- With the shift 1, the import of `danglingStep` gives a union but is not exact. -/
theorem importShifted_outcome_danglingStep :
    danglingStep.greatestVertex.toNat + (1 : Vertex).toNat < UInt32.size ∧
      (∃ C, (Update.importShifted danglingStep 1).run (singleton 5) = .ok () C ∧
        C.IsUnionAlong (· + 1) (singleton 5) danglingStep) ∧
      ¬ ∀ q, danglingStep.Occurs q → q.toNat + (1 : Vertex).toNat < UInt32.size := by
  obtain ⟨_, hsuccess, _, _⟩ := importShifted_outcome (singleton 5) danglingStep 1
  obtain ⟨C, hrun, hunion, _⟩ := hsuccess fits_danglingStep
  refine ⟨fits_danglingStep, ⟨C, hrun, hunion⟩, fun hrange => ?_⟩
  exact absurd (hrange _ occurs_danglingStep) (by decide)

/-- `danglingStep` is read from a value, and its import with the shift 1 takes the target to zero,
which is not the sum of the numbers. -/
theorem not_importsExactly_danglingStep :
    ofValue? danglingStep.toValue = some danglingStep ∧
      (Update.importShifted danglingStep 1).run (singleton 5) =
        .ok () ((singleton 5).importAlong danglingStep (· + 1)) ∧
      0 ∈ ((singleton 5).importAlong danglingStep (· + 1)).successors 1 (some 'a') ∧
      ¬ (singleton 5).ImportsExactly danglingStep 1 := by
  refine ⟨ofValue?_toValue _, run_importShifted_eq_ok fits_danglingStep, by decide +kernel,
    fun hcontrary => ?_⟩
  have hfits := fits_danglingStep
  have hrange := (importsExactly_iff.1 hcontrary).resolve_left (by omega)
  exact absurd (hrange _ occurs_danglingStep) (by decide)

end Automaton

end Recognizer
