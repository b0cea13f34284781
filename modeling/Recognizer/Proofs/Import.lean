import Recognizer.Automaton.Union
import Recognizer.Automaton.WellFormed

/-!
# What an import brings

An import adds the images of the imported vertices, finishes and transitions to the receiver, and
nothing else; the map may send several vertices to one. Importing well-formed automata gives a
well-formed automaton, whatever the map.

A disjoint import shifts by the number after the greatest vertex. No vertex exceeds the greatest
one, so once the greatest imported vertex can be shifted, no shift of a vertex wraps around.
-/

namespace Recognizer

open Std

/-- Merging adds the images of the targets, symbol by symbol. -/
theorem Outgoing.mem_getD_mergeImage {out other : Outgoing} {f : Vertex → Vertex} {s : Symbol}
    {r : Vertex} :
    r ∈ (out.mergeImage other f)[s]?.getD ∅ ↔
      r ∈ out[s]?.getD ∅ ∨ ∃ m ∈ other[s]?.getD ∅, f m = r := by
  have hfold := getD_foldl_amend out other.toList Prod.fst
    (fun entry m => m.insertMany (entry.2.toList.map f)) (P := fun m : VertexSet => r ∈ m)
    (R := fun entry => ∃ m ∈ entry.2, f m = r) s (by simp)
  rw [mergeImage, hfold]
  apply or_congr_right
  apply Iff.intro
  · intro h
    obtain ⟨entry, hentry, rfl, hr⟩ := h
    rwa [ExtTreeMap.mem_toList_iff_getElem?_eq_some.1 hentry]
  · intro h
    obtain ⟨m, hm, hr⟩ := h
    cases htargets : other[s]? with
    | none => simp [htargets] at hm
    | some targets =>
      rw [htargets] at hm
      exact ⟨(s, targets), ExtTreeMap.mem_toList_iff_getElem?_eq_some.2 htargets, rfl, m, hm, hr⟩

/-- Merging adds the symbols that have an entry. -/
theorem Outgoing.mem_mergeImage {out other : Outgoing} {f : Vertex → Vertex} {s : Symbol} :
    s ∈ out.mergeImage other f ↔ s ∈ out ∨ s ∈ other := by
  rw [mergeImage, mem_foldl_amend _ _ Prod.fst]
  apply or_congr_right
  apply Iff.intro
  · intro h
    obtain ⟨entry, hentry, rfl⟩ := h
    rw [← ExtTreeMap.isSome_getElem?_iff_mem,
      ExtTreeMap.mem_toList_iff_getElem?_eq_some.1 hentry, Option.isSome_some]
  · intro h
    obtain ⟨targets, htargets⟩ := Option.isSome_iff_exists.1 (ExtTreeMap.isSome_getElem?_iff_mem.2 h)
    exact ⟨(s, targets), ExtTreeMap.mem_toList_iff_getElem?_eq_some.2 htargets, rfl⟩

/-- A shift within the range of identifiers is an addition of numbers. -/
theorem Vertex.toNat_add {q offset : Vertex} (h : q.toNat + offset.toNat < UInt32.size) :
    (q + offset).toNat = q.toNat + offset.toNat := by
  rw [UInt32.toNat_add]
  exact Nat.mod_eq_of_lt h

/-- A vertex is shifted if the sum fits. -/
theorem Vertex.shift_eq_ok {q offset : Vertex} (h : q.toNat + offset.toNat < UInt32.size) :
    Vertex.shift q offset = .ok (q + offset) :=
  if_pos h

namespace Automaton

variable {A B : Automaton} {f : Vertex → Vertex} {q r offset : Vertex} {s : Symbol}

/-! ### Imports along a map -/

/-- An import leaves the start as it is. -/
@[simp]
theorem start_importAlong : (A.importAlong B f).start = A.start := rfl

/-- The images of vertices become vertices. -/
@[simp]
theorem contains_importAlong :
    (A.importAlong B f).contains r = true ↔
      A.contains r = true ∨ ∃ q, B.contains q = true ∧ f q = r := by
  simp only [contains, ExtTreeMap.contains_iff_mem, importAlong]
  rw [mem_foldl_amend _ _ fun entry : Vertex × Outgoing => f entry.1]
  apply or_congr_right
  apply Iff.intro
  · intro h
    obtain ⟨entry, hentry, hr⟩ := h
    refine ⟨entry.1, ?_, hr⟩
    rw [← ExtTreeMap.isSome_getElem?_iff_mem,
      ExtTreeMap.mem_toList_iff_getElem?_eq_some.1 hentry, Option.isSome_some]
  · intro h
    obtain ⟨q, hq, hr⟩ := h
    obtain ⟨out, hout⟩ := Option.isSome_iff_exists.1 (ExtTreeMap.isSome_getElem?_iff_mem.2 hq)
    exact ⟨(q, out), ExtTreeMap.mem_toList_iff_getElem?_eq_some.2 hout, hr⟩

/-- The images of finishes become finishes. -/
@[simp]
theorem isFinish_importAlong :
    (A.importAlong B f).isFinish r = true ↔
      A.isFinish r = true ∨ ∃ q, B.isFinish q = true ∧ f q = r := by
  simp [isFinish, importAlong]

/-- The images of transitions become transitions. -/
@[simp]
theorem mem_successors_importAlong :
    r ∈ (A.importAlong B f).successors q s ↔
      r ∈ A.successors q s ∨ ∃ p m, m ∈ B.successors p s ∧ f p = q ∧ f m = r := by
  have hfold := getD_foldl_amend A.outgoing B.outgoing.toList (fun entry => f entry.1)
    (fun entry out => out.mergeImage entry.2 f) (P := fun out : Outgoing => r ∈ out[s]?.getD ∅)
    (R := fun entry => ∃ m ∈ entry.2[s]?.getD ∅, f m = r) q
    (fun _ _ => Outgoing.mem_getD_mergeImage)
  rw [successors, importAlong, hfold]
  apply or_congr_right
  apply Iff.intro
  · intro h
    obtain ⟨entry, hentry, hq, m, hm, hr⟩ := h
    refine ⟨entry.1, m, ?_, hq, hr⟩
    rwa [successors, ExtTreeMap.mem_toList_iff_getElem?_eq_some.1 hentry]
  · intro h
    obtain ⟨p, m, hm, hq, hr⟩ := h
    cases hout : B.outgoing[p]? with
    | none => simp [successors, hout] at hm
    | some out =>
      rw [successors, hout] at hm
      exact ⟨(p, out), ExtTreeMap.mem_toList_iff_getElem?_eq_some.2 hout, hq, m, hm, hr⟩

/-- The images of entries become entries. -/
@[simp]
theorem hasEntry_importAlong :
    (A.importAlong B f).hasEntry q s = true ↔
      A.hasEntry q s = true ∨ ∃ p, B.hasEntry p s = true ∧ f p = q := by
  have hfold := getD_foldl_amend A.outgoing B.outgoing.toList (fun entry => f entry.1)
    (fun entry out => out.mergeImage entry.2 f) (P := fun out : Outgoing => s ∈ out)
    (R := fun entry => s ∈ entry.2) q (fun _ _ => Outgoing.mem_mergeImage)
  simp only [hasEntry, ExtTreeMap.contains_iff_mem]
  rw [importAlong, hfold]
  apply or_congr_right
  apply Iff.intro
  · intro h
    obtain ⟨entry, hentry, hq, hs⟩ := h
    refine ⟨entry.1, ?_, hq⟩
    rwa [ExtTreeMap.mem_toList_iff_getElem?_eq_some.1 hentry]
  · intro h
    obtain ⟨p, hp, hq⟩ := h
    cases hout : B.outgoing[p]? with
    | none => simp [hout] at hp
    | some out =>
      rw [hout] at hp
      exact ⟨(p, out), ExtTreeMap.mem_toList_iff_getElem?_eq_some.2 hout, hq, hp⟩

/-- An import along any map keeps automata well-formed. -/
theorem WellFormed.importAlong (hA : A.WellFormed) (hB : B.WellFormed) (f : Vertex → Vertex) :
    (A.importAlong B f).WellFormed := by
  apply of_hasEntry
  · exact contains_importAlong.2 (Or.inl hA.contains_start)
  · intro q hq
    rcases isFinish_importAlong.1 hq with hq | ⟨p, hp, rfl⟩
    · exact contains_importAlong.2 (Or.inl (hA.contains_finish q hq))
    · exact contains_importAlong.2 (Or.inr ⟨p, hB.contains_finish p hp, rfl⟩)
  · intro q s r hr
    rcases mem_successors_importAlong.1 hr with hr | ⟨p, m, hm, rfl, rfl⟩
    · exact contains_importAlong.2 (Or.inl (hA.contains_target q s r hr))
    · exact contains_importAlong.2 (Or.inr ⟨m, hB.contains_target p s m hm, rfl⟩)
  · intro q s hentry
    rcases hasEntry_importAlong.1 hentry with hentry | ⟨p, hp, rfl⟩
    · obtain ⟨r, hr⟩ := hA.hasEntry_iff.1 hentry
      exact ⟨r, mem_successors_importAlong.2 (Or.inl hr)⟩
    · obtain ⟨m, hm⟩ := hB.hasEntry_iff.1 hp
      exact ⟨f m, mem_successors_importAlong.2 (Or.inr ⟨p, m, hm, rfl, rfl⟩)⟩

/-! ### The greatest vertex -/

/-- No vertex exceeds the greatest one. -/
theorem toNat_le_greatestVertex (h : A.contains q = true) :
    q.toNat ≤ A.greatestVertex.toNat := by
  rw [greatestVertex]
  cases hmax : A.outgoing.maxKey? with
  | none =>
    rw [ExtTreeMap.maxKey?_eq_none_iff] at hmax
    simp [contains, hmax] at h
  | some m =>
    obtain ⟨_, hle⟩ := ExtTreeMap.maxKey?_eq_some_iff_mem_and_forall.1 hmax
    have hq := hle q (ExtTreeMap.contains_iff_mem.1 h)
    rw [isLE_compare] at hq
    exact UInt32.le_iff_toNat_le.1 hq

/-- The greatest vertex is a vertex, if there is one at all. -/
theorem contains_greatestVertex (h : A.contains q = true) :
    A.contains A.greatestVertex = true := by
  rw [greatestVertex]
  cases hmax : A.outgoing.maxKey? with
  | none =>
    rw [ExtTreeMap.maxKey?_eq_none_iff] at hmax
    simp [contains, hmax] at h
  | some m =>
    exact ExtTreeMap.contains_iff_mem.2
      (ExtTreeMap.maxKey?_eq_some_iff_mem_and_forall.1 hmax).1

/-- A vertex that no other one exceeds is the greatest. -/
theorem greatestVertex_eq (hq : A.contains q = true) (hmax : A.vertices.all (· ≤ q) = true) :
    A.greatestVertex = q := by
  apply UInt32.le_antisymm
  · have hmem := mem_vertices.2 (contains_greatestVertex hq)
    exact of_decide_eq_true (List.all_eq_true.1 hmax _ hmem)
  · exact UInt32.le_iff_toNat_le.2 (toNat_le_greatestVertex hq)

/-! ### Shifts -/

/-- Where the greatest vertex can be shifted, all vertices can. -/
theorem toNat_add_of_contains (hfits : B.greatestVertex.toNat + offset.toNat < UInt32.size)
    (hq : B.contains q = true) : (q + offset).toNat = q.toNat + offset.toNat := by
  have hle := toNat_le_greatestVertex hq
  exact Vertex.toNat_add (by omega)

/-- An import with a shift succeeds if the greatest imported vertex can be shifted. -/
theorem importShifted_eq :
    A.importShifted B offset =
      if B.greatestVertex.toNat + offset.toNat < UInt32.size then .ok (A.importAlong B (· + offset))
      else .error (.identifierOverflow B.greatestVertex offset) := by
  rw [importShifted, Vertex.shift]
  split <;> rfl

/-- The number after the greatest vertex is free, unless it is out of range. -/
theorem freshIdentifier_eq :
    A.freshIdentifier =
      if A.greatestVertex.toNat + 1 < UInt32.size then .ok (A.greatestVertex + 1)
      else .error (.identifierOverflow A.greatestVertex 1) := rfl

/-- A vertex is added after the greatest one, unless no identifier is left. -/
theorem addFreshVertex_eq :
    A.addFreshVertex =
      if A.greatestVertex.toNat + 1 < UInt32.size then
        .ok (A.greatestVertex + 1, A.insertVertex (A.greatestVertex + 1))
      else .error (.identifierOverflow A.greatestVertex 1) := by
  rw [addFreshVertex, freshIdentifier_eq]
  split <;> rfl

/-- A disjoint import shifts by the number after the greatest vertex, unless an identifier is
missing for that number or for an imported vertex. -/
theorem importUnder_disjoint_eq :
    A.importUnder B .disjoint =
      if A.greatestVertex.toNat + 1 < UInt32.size then
        if B.greatestVertex.toNat + (A.greatestVertex.toNat + 1) < UInt32.size then
          .ok (A.greatestVertex + 1, A.importAlong B (· + (A.greatestVertex + 1)))
        else .error (.identifierOverflow B.greatestVertex (A.greatestVertex + 1))
      else .error (.identifierOverflow A.greatestVertex 1) := by
  rw [importUnder, importOffset, freshIdentifier_eq]
  by_cases hA : A.greatestVertex.toNat + 1 < UInt32.size
  · have hone : (A.greatestVertex + 1).toNat = A.greatestVertex.toNat + 1 := Vertex.toNat_add hA
    rw [if_pos hA, if_pos hA]
    by_cases hB : B.greatestVertex.toNat + (A.greatestVertex.toNat + 1) < UInt32.size
    · rw [if_pos hB]
      simp only [bind, Except.bind, importShifted_eq, hone, if_pos hB]
      rfl
    · rw [if_neg hB]
      simp only [bind, Except.bind, importShifted_eq, hone, if_neg hB]
  · rw [if_neg hA, if_neg hA]
    rfl

/-- An import that shares vertices always succeeds. -/
theorem importUnder_shared_eq :
    A.importUnder B .shared = .ok (0, A.importAlong B (· + 0)) := by
  have hfits : B.greatestVertex.toNat + (0 : Vertex).toNat < UInt32.size :=
    B.greatestVertex.toNat_lt_size
  simp only [importUnder, importOffset, bind, Except.bind, importShifted_eq, if_pos hfits]
  rfl

/-- A disjoint import succeeds if all identifiers fit. -/
theorem importUnder_disjoint_eq_ok (hA : A.greatestVertex.toNat + 1 < UInt32.size)
    (hB : B.greatestVertex.toNat + (A.greatestVertex.toNat + 1) < UInt32.size) :
    A.importUnder B .disjoint =
      .ok (A.greatestVertex + 1, A.importAlong B (· + (A.greatestVertex + 1))) := by
  rw [importUnder_disjoint_eq, if_pos hA, if_pos hB]

end Automaton

end Recognizer
