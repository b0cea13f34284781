import Recognizer.Proofs.BlueprintShape
import Recognizer.Proofs.Construction
import Recognizer.Proofs.TransitionList

/-!
# The construction fails only when identifiers run out

An expression needs as many identifiers as it counts vertices. If there are that many, its automaton
is as large as the blueprint says and has nothing in it that is off the way from the start to the
finish. If there are not, some import on the way to the root of the tree has no identifier left for
its last vertex, and that failure is handed up: none of the other checks ever strikes
(`toAutomaton_outcome`).
-/

namespace Recognizer

open Std

/-- The computation fails because an identifier would be too great. -/
def Overflows {α : Type} (x : Except GraphError α) : Prop :=
  ∃ q offset, x = .error (.identifierOverflow q offset)

namespace Overflows

variable {α β : Type} {x : Except GraphError α} {f : α → Except GraphError β}

/-- The failure of the first step is that of the whole. -/
theorem bind (h : Overflows x) : Overflows (x >>= f) := by
  obtain ⟨q, offset, rfl⟩ := h
  exact ⟨q, offset, rfl⟩

/-- What overflows has no result. -/
theorem ne_ok {a : α} (h : Overflows x) : x ≠ .ok a := by
  rintro rfl
  obtain ⟨q, offset, herror⟩ := h
  cases herror

/-- After a step that succeeds, the rest may fail. -/
theorem bind_of_eq_ok {a : α} (hx : x = .ok a) (h : Overflows (f a)) : Overflows (x >>= f) := by
  rw [hx]
  exact h

/-- A shift beyond the last identifier fails. -/
theorem shift {q offset : Vertex} (hfull : UInt32.size ≤ q.toNat + offset.toNat) :
    Overflows (Vertex.shift q offset) :=
  ⟨q, offset, if_neg (Nat.not_lt.2 hfull)⟩

end Overflows

namespace Automaton.Realizes

variable {A B : Automaton} {exit : Vertex} {m n x y : Nat} {exits exits' : List Nat}
variable {steps steps' : List (Transition Nat)}

/-- The transitions are counted by the steps, if these are listed once each. -/
theorem transitionCount_eq (hA : A.Realizes n exits steps) (hnodup : steps.Nodup)
    (hsteps : ∀ t ∈ steps, t.source < n ∧ t.target < n) : A.transitionCount = steps.length := by
  have hinjective : Function.Injective (Transition.rename UInt32.toNat) := by
    intro t t' heq
    cases t
    cases t'
    simpa [Transition.rename, UInt32.toNat_inj] using heq
  have hmem (t : Transition Nat) :
      t ∈ A.transitions.map (Transition.rename UInt32.toNat) ↔ t ∈ steps := by
    rw [List.mem_map]
    constructor
    · rintro ⟨t, ht, rfl⟩
      exact (hA.mem_successors_iff _ _ _).1 (mem_transitions_iff.1 ht)
    · intro ht
      obtain ⟨hsource, htarget⟩ := hsteps t ht
      obtain ⟨q, hq⟩ := exists_toNat_eq (Nat.lt_of_lt_of_le hsource hA.size_le)
      obtain ⟨r, hr⟩ := exists_toNat_eq (Nat.lt_of_lt_of_le htarget hA.size_le)
      refine ⟨⟨q, t.symbol, r⟩, mem_transitions_iff.2 ((hA.mem_successors_iff _ _ _).2 ?_), ?_⟩
      · rwa [hq, hr]
      · rw [Transition.rename, hq, hr]
  have hperm := (List.perm_ext_iff_of_nodup (A.nodup_transitions.map hinjective) hnodup).2 hmem
  rw [← A.length_transitions, ← hperm.length_eq, List.length_map]

/-! ### Imports that do not fit -/

/-- An import fails if it needs more identifiers than there are. -/
theorem importUnder_overflows (hA : A.Realizes m exits steps) (hB : B.Realizes n exits' steps')
    (hfull : UInt32.size < m + n) : Overflows (A.importUnder B .disjoint) := by
  have hm := hA.toNat_greatestVertex
  have hn := hB.toNat_greatestVertex
  have hsize := hA.size_le
  rw [Automaton.importUnder, importOffset, freshIdentifier]
  -- Either the receiver has taken the last identifier, or the imported vertices go past it.
  rcases Nat.lt_or_eq_of_le hsize with hlt | hlast
  · have hfits : A.greatestVertex.toNat + (1 : Vertex).toNat < UInt32.size := by
      rw [UInt32.toNat_one]
      omega
    have hoffset : (A.greatestVertex + 1).toNat = m := (Vertex.toNat_add hfits).trans hm
    refine Overflows.bind_of_eq_ok (Vertex.shift_eq_ok hfits) (Overflows.bind ?_)
    exact Overflows.bind (Overflows.shift (by omega))
  · refine Overflows.bind (Overflows.shift ?_)
    rw [UInt32.toNat_one]
    omega

/-- Two automata in a row fail where they have more vertices than there are identifiers. -/
theorem followedBy_overflows (hA : A.Realizes m [x] steps) (hB : B.Realizes n exits' steps')
    (hfull : UInt32.size < m + n) : Overflows (A.followedBy B) := by
  obtain ⟨finish, hfinish, _⟩ := hA.uniqueFinish
  exact Overflows.bind_of_eq_ok hfinish (Overflows.bind (hA.importUnder_overflows hB hfull))

/-- A branch fails where it takes more vertices than there are identifiers. -/
theorem addBranch_overflows (hA : A.Realizes m exits steps) (hB : B.Realizes n [y] steps')
    (hfull : UInt32.size < m + n) : Overflows (A.addBranch B exit) := by
  obtain ⟨finish, hfinish, _⟩ := hB.uniqueFinish
  exact Overflows.bind_of_eq_ok hfinish (Overflows.bind (hA.importUnder_overflows hB hfull))

end Automaton.Realizes

namespace Expression

variable {e : Expression} {A : Automaton}

/-- An expression with more vertices than identifiers has no automaton. -/
theorem toAutomaton_overflows (h : UInt32.size < e.vertexCount) : Overflows e.toAutomaton := by
  induction e with
  | atom s =>
    have htwo : UInt32.size < 2 := h
    exact absurd htwo (by decide)
  | seq l r ihl ihr =>
    rw [toAutomaton]
    rcases Nat.lt_or_ge UInt32.size l.vertexCount with hl | hl
    · exact (ihl hl).bind
    obtain ⟨A, hA, hrealizesA⟩ := l.toAutomaton_realizes hl
    refine Overflows.bind_of_eq_ok hA ?_
    rcases Nat.lt_or_ge UInt32.size r.vertexCount with hr | hr
    · exact (ihr hr).bind
    obtain ⟨B, hB, hrealizesB⟩ := r.toAutomaton_realizes hr
    exact Overflows.bind_of_eq_ok hB (hrealizesA.followedBy_overflows hrealizesB h)
  | alt l r ihl ihr =>
    rw [toAutomaton]
    simp only [vertexCount] at h
    obtain ⟨finish, ends, htwo, hfinish, hends⟩ := Automaton.Realizes.twoEnds
    refine Overflows.bind_of_eq_ok htwo ?_
    rcases Nat.lt_or_ge UInt32.size l.vertexCount with hl | hl
    · exact (ihl hl).bind
    obtain ⟨A, hA, hrealizesA⟩ := l.toAutomaton_realizes hl
    refine Overflows.bind_of_eq_ok hA ?_
    rcases Nat.lt_or_ge UInt32.size (2 + l.vertexCount) with hfirst | hfirst
    · exact (hends.addBranch_overflows hrealizesA hfirst).bind
    obtain ⟨first, hadd, hrealizes⟩ := hends.addBranch hrealizesA (q := finish) (by omega) hfirst
    refine Overflows.bind_of_eq_ok hadd ?_
    rcases Nat.lt_or_ge UInt32.size r.vertexCount with hr | hr
    · exact (ihr hr).bind
    obtain ⟨B, hB, hrealizesB⟩ := r.toAutomaton_realizes hr
    exact Overflows.bind_of_eq_ok hB (hrealizes.addBranch_overflows hrealizesB (by omega))
  | star e ih =>
    rw [toAutomaton]
    simp only [vertexCount] at h
    obtain ⟨_, ends, hmark, hends⟩ := Automaton.Realizes.singleton.markFinish (q := 0) (by decide)
    refine Overflows.bind_of_eq_ok hmark ?_
    rcases Nat.lt_or_ge UInt32.size e.vertexCount with he | he
    · exact (ih he).bind
    obtain ⟨B, hB, hrealizesB⟩ := e.toAutomaton_realizes he
    exact Overflows.bind_of_eq_ok hB (hends.addBranch_overflows hrealizesB (by omega))

/-- If the construction succeeds, there were identifiers enough, and it followed the blueprint. -/
theorem realizes_of_toAutomaton_eq_ok (h : e.toAutomaton = .ok A) :
    A.Realizes e.vertexCount [e.exit] e.steps := by
  rcases Nat.lt_or_ge UInt32.size e.vertexCount with hfull | hfits
  · exact absurd h (toAutomaton_overflows hfull).ne_ok
  · obtain ⟨B, hB, hrealizes⟩ := e.toAutomaton_realizes hfits
    rw [h] at hB
    cases hB
    exact hrealizes

end Expression

namespace Automaton.Realizes

variable {e : Expression} {A : Automaton} {q r : Vertex}

/-- From the start of a constructed automaton there is a path to every vertex. -/
theorem exists_path_from_start (hA : A.Realizes e.vertexCount [e.exit] e.steps)
    (hq : A.contains q = true) : ∃ w, A.Path A.start w q := by
  obtain ⟨w, hw⟩ := Expression.exists_walk_to ((hA.contains_iff q).1 hq)
  refine ⟨w, (hA.path_iff_walk fun _ ht => (Expression.lt_of_mem_steps ht).2).2 ?_⟩
  rwa [hA.start_eq, UInt32.toNat_zero]

/-- From every vertex of a constructed automaton there is a path to the finish. -/
theorem exists_path_to_exit (hA : A.Realizes e.vertexCount [e.exit] e.steps)
    (hq : A.contains q = true) (hr : r.toNat = e.exit) : ∃ w, A.Path q w r := by
  obtain ⟨w, hw⟩ := Expression.exists_walk_to_exit ((hA.contains_iff q).1 hq)
  refine ⟨w, (hA.path_iff_walk fun _ ht => (Expression.lt_of_mem_steps ht).2).2 ?_⟩
  rwa [hr]

end Automaton.Realizes

namespace Expression

/-- While the identifiers suffice for its vertices, an expression has an automaton with just these
vertices, as many transitions as it counts, and a single finish, where all vertices are on the way
from the start to the finish. Otherwise the construction fails with an overflow, and it never fails
with anything else. -/
theorem toAutomaton_outcome (e : Expression) :
    (e.vertexCount ≤ UInt32.size → ∃ A finish, e.toAutomaton = .ok A ∧ A.start = 0 ∧
      A.vertices.map UInt32.toNat = List.range e.vertexCount ∧
      A.transitionCount = e.transitionCount ∧
      (∀ q, A.isFinish q = true ↔ q = finish) ∧
      ∀ q, A.contains q = true → (∃ w, A.Path A.start w q) ∧ ∃ w, A.Path q w finish) ∧
    (UInt32.size < e.vertexCount →
      ∃ q offset, e.toAutomaton = .error (.identifierOverflow q offset)) ∧
    ∀ failure, e.toAutomaton = .error failure →
      ∃ q offset, failure = .identifierOverflow q offset := by
  refine ⟨fun hfits => ?_, toAutomaton_overflows, fun failure hfailure => ?_⟩
  · obtain ⟨A, hA, hrealizes⟩ := e.toAutomaton_realizes hfits
    obtain ⟨finish, _, hfinish⟩ := hrealizes.uniqueFinish
    have hcount := hrealizes.transitionCount_eq e.nodup_steps fun _ ht => lt_of_mem_steps ht
    refine ⟨A, finish, hA, hrealizes.start_eq,
      Automaton.vertices_map_toNat hrealizes.contains_iff hfits, hcount.trans e.length_steps,
      fun q => ?_, fun q hq => ⟨hrealizes.exists_path_from_start hq,
        hrealizes.exists_path_to_exit hq hfinish⟩⟩
    rw [hrealizes.isFinish_iff, List.mem_singleton, ← hfinish, UInt32.toNat_inj]
  · rcases Nat.lt_or_ge UInt32.size e.vertexCount with hfull | hfits
    · obtain ⟨q, offset, herror⟩ := toAutomaton_overflows hfull
      rw [hfailure] at herror
      cases herror
      exact ⟨q, offset, rfl⟩
    · obtain ⟨A, hA, _⟩ := e.toAutomaton_realizes hfits
      rw [hfailure] at hA
      cases hA

/-- The character `a`, twice as often with each doubling. -/
def doubled : Nat → Expression
  | 0 => char 'a'
  | k + 1 => seq (doubled k) (doubled k)

/-- Doubling an expression doubles the number of its vertices. -/
theorem vertexCount_doubled (k : Nat) : (doubled k).vertexCount = 2 ^ (k + 1) := by
  induction k with
  | zero => rfl
  | succ k ih => rw [doubled, vertexCount, ih, Nat.pow_succ 2 (k + 1), Nat.mul_two]

/-- Thirty-one doublings take all identifiers, so the expression still has an automaton, but its
closure has none. -/
theorem toAutomaton_outcome_doubled :
    (doubled 31).vertexCount = UInt32.size ∧
      (∃ A, (doubled 31).toAutomaton = .ok A ∧
        A.vertices.map UInt32.toNat = List.range UInt32.size) ∧
      ∃ q offset, (star (doubled 31)).toAutomaton = .error (.identifierOverflow q offset) := by
  have hsize : (doubled 31).vertexCount = UInt32.size := vertexCount_doubled 31
  have hfull : UInt32.size < (star (doubled 31)).vertexCount := by
    rw [vertexCount, hsize]
    exact Nat.lt_succ_self _
  obtain ⟨A, _, hA, _, hvertices, _⟩ := (toAutomaton_outcome (doubled 31)).1 (Nat.le_of_eq hsize)
  rw [hsize] at hvertices
  exact ⟨hsize, ⟨A, hA, hvertices⟩, (toAutomaton_outcome (star (doubled 31))).2.1 hfull⟩

end Expression

end Recognizer
