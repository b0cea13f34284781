import Recognizer.Proofs.Atomicity
import Recognizer.Proofs.Runs

/-!
# Completion makes deterministic automata total

A deterministic automaton is total over an alphabet exactly if none of its moves is missing
(`missingMoves_eq_nil_iff_isTotalOver`). So completion leaves total automata as they are, and
otherwise closes every gap with the sink, which has no gap itself.

Main statement: run in place, completion keeps what every vertex accepts, whatever the automaton, and
where it fails it leaves the automaton as it was. On a deterministic one it adds nothing, adds a dead
vertex with just the moves that were missing, or fails for want of an identifier, and each of these in
exactly one case (`totalizeOver_cases`).
-/

namespace Recognizer

open Std

namespace Automaton

variable {A : Automaton} {characters : Alphabet} {q r : Vertex} {s : Symbol} {c : Char}

/-! ### Total automata -/

/-- A set with at most one member has exactly one if it has any. -/
theorem size_eq_one_iff {targets : VertexSet} (h : targets.size ≤ 1) :
    targets.size = 1 ↔ ∃ r, r ∈ targets := by
  rw [← ExtTreeSet.length_toList] at h ⊢
  simp only [← ExtTreeSet.mem_toList]
  match targets.toList, h with
  | [], _ => simp
  | [m], _ => simp

/-- The sets of targets of a deterministic automaton have at most one member. -/
theorem size_le_one_of_isDeterministic (hdet : A.isDeterministic = true) :
    (A.successors q s).size ≤ 1 :=
  size_le_one_iff.2 ((isDeterministic_iff_hasEntry.1 hdet).2 q s)

/-- A total automaton is a deterministic one where every vertex can read every character. -/
theorem isTotalOver_iff :
    A.isTotalOver characters = true ↔ A.isDeterministic = true ∧
      ∀ q, A.contains q = true → ∀ c ∈ characters, ∃ r, r ∈ A.successors q (some c) := by
  rw [isTotalOver, Bool.and_eq_true]
  refine and_congr_right fun hdet => ?_
  have hsingle (q : Vertex) (out : Outgoing) (hout : A.outgoing[q]? = some out) (c : Char) :
      (out[some c]?.map (·.size)) = some 1 ↔ ∃ r, r ∈ A.successors q (some c) := by
    have hsize := size_le_one_of_isDeterministic (q := q) (s := some c) hdet
    rw [← size_eq_one_iff hsize, successors, hout, Option.getD_some]
    cases out[some c]? with
    | none => simp
    | some targets => simp
  simp only [List.all_eq_true, mem_tables, ExtTreeSet.mem_toList, beq_iff_eq]
  constructor
  · intro h q hq c hc
    obtain ⟨out, hout⟩ := Option.ne_none_iff_exists'.1 (contains_iff_getElem?_ne_none.1 hq)
    exact (hsingle q out hout c).1 (h out ⟨q, hout⟩ c hc)
  · intro h out hout c hc
    obtain ⟨q, hout⟩ := hout
    have hq : A.contains q = true := contains_iff_getElem?_ne_none.2 (by simp [hout])
    exact (hsingle q out hout c).2 (h q hq c hc)

/-- No move is missing if every vertex has an entry for every character. -/
theorem missingMoves_eq_nil_iff :
    A.missingMoves characters = [] ↔
      ∀ q, A.contains q = true → ∀ c ∈ characters, A.hasEntry q (some c) = true := by
  simp only [List.eq_nil_iff_forall_not_mem, Prod.forall, mem_missingMoves, not_and,
    Bool.not_eq_false]
  exact forall_congr' fun _ => forall_comm

/-- A deterministic automaton misses no move exactly if it is total. -/
theorem WellFormed.missingMoves_eq_nil_iff_isTotalOver (hA : A.WellFormed)
    (hdet : A.isDeterministic = true) :
    A.missingMoves characters = [] ↔ A.isTotalOver characters = true := by
  simp only [missingMoves_eq_nil_iff, isTotalOver_iff, hdet, true_and, hA.hasEntry_iff]

/-! ### The automaton with a sink -/

section Sink

variable (hfits : A.greatestVertex.toNat + 1 < UInt32.size)
include hfits

/-- Nothing leads from the sink before it is added. -/
theorem not_mem_successors_sink : r ∉ A.successors (A.greatestVertex + 1) s := by
  intro h
  exact not_contains_greatestVertex_add_one hfits (contains_of_mem_successors h)

/-- A vertex with a successor on a character is not sent to the sink on it. -/
theorem mem_successors_withSink_of_mem (hr : r ∈ A.successors q s) {p : Vertex} :
    p ∈ (A.withSink characters).successors q s ↔ p ∈ A.successors q s := by
  rw [mem_successors_withSink]
  refine or_iff_left fun hsink => ?_
  obtain ⟨_, c, _, rfl, rfl | ⟨_, hentry⟩⟩ := hsink
  · exact not_mem_successors_sink hfits hr
  · rw [hasEntry_of_mem_successors hr] at hentry
    cases hentry

/-- The sink does not give a vertex a second successor. -/
theorem isDeterministic_withSink (hA : A.WellFormed) (hdet : A.isDeterministic = true) :
    (A.withSink characters).isDeterministic = true := by
  have hunique := (isDeterministic_iff_hasEntry.1 hdet).2
  rw [(hA.withSink characters).isDeterministic_iff]
  constructor
  · intro q r hr
    rcases mem_successors_withSink.1 hr with hold | ⟨_, c, _, hc, _⟩
    · exact not_mem_successors_of_isDeterministic hdet hold
    · cases hc
  · intro q s r hr r' hr'
    by_cases hold : ∃ p, p ∈ A.successors q s
    · obtain ⟨p, hp⟩ := hold
      rw [mem_successors_withSink_of_mem hfits hp] at hr hr'
      exact hunique q s r hr r' hr'
    · have hnew {m : Vertex} (hm : m ∈ (A.withSink characters).successors q s) :
          m = A.greatestVertex + 1 := by
        rcases mem_successors_withSink.1 hm with hm | ⟨hm, _⟩
        · exact absurd ⟨m, hm⟩ hold
        · exact hm
      rw [hnew hr, hnew hr']

/-- With the sink no move is missing. -/
theorem isTotalOver_withSink (hA : A.WellFormed) (hdet : A.isDeterministic = true) :
    (A.withSink characters).isTotalOver characters = true := by
  rw [isTotalOver_iff]
  refine ⟨isDeterministic_withSink hfits hA hdet, fun q hq c hc => ?_⟩
  rcases contains_withSink.1 hq with rfl | hq
  · exact ⟨_, mem_successors_withSink.2 (Or.inr ⟨rfl, c, hc, rfl, Or.inl rfl⟩)⟩
  · cases hentry : A.hasEntry q (some c) with
    | true =>
      obtain ⟨r, hr⟩ := hA.hasEntry_iff.1 hentry
      exact ⟨r, mem_successors_withSink.2 (Or.inl hr)⟩
    | false => exact ⟨_, mem_successors_withSink.2 (Or.inr ⟨rfl, c, hc, rfl, Or.inr ⟨hq, hentry⟩⟩)⟩

end Sink

/-! ### The outcomes of completion -/

/-- One automaton extends another without changing what its vertices accept. -/
structure Extends (B A : Automaton) : Prop where
  start_eq : B.start = A.start
  contains : ∀ q, A.contains q = true → B.contains q = true
  isFinish : ∀ q, B.isFinish q = A.isFinish q
  mem_successors : ∀ q s, ∀ r ∈ A.successors q s, r ∈ B.successors q s
  acceptsFrom_iff : ∀ q w, A.contains q = true → (B.AcceptsFrom q w ↔ A.AcceptsFrom q w)

/-- `B` is `A` made total by a dead vertex. -/
structure IsCompletion (A : Automaton) (characters : Alphabet) (sink : Vertex) (B : Automaton) :
    Prop where
  /-- The sink comes after the greatest vertex, so it is a new one. -/
  toNat_sink : sink.toNat = A.greatestVertex.toNat + 1
  contains_iff : ∀ q, B.contains q = true ↔ q = sink ∨ A.contains q = true
  isFinish_sink : B.isFinish sink = false
  not_acceptsFrom_sink : ∀ w, ¬B.AcceptsFrom sink w
  /-- The new transitions are the loops of the sink and those for the missing moves. -/
  mem_successors_iff : ∀ q s r, r ∈ B.successors q s ↔
    r ∈ A.successors q s ∨ r = sink ∧ ∃ c ∈ characters, s = some c ∧
      (q = sink ∨ A.contains q = true ∧ ∀ p, p ∉ A.successors q (some c))
  isDeterministic : B.isDeterministic = true
  isTotalOver : B.isTotalOver characters = true

/-- An automaton with a sink extends the one without. -/
theorem extends_withSink (hA : A.WellFormed) (hfits : A.greatestVertex.toNat + 1 < UInt32.size) :
    (A.withSink characters).Extends A where
  start_eq := start_withSink
  contains _ hq := contains_withSink.2 (Or.inr hq)
  isFinish _ := isFinish_withSink
  mem_successors _ _ _ hr := mem_successors_withSink.2 (Or.inl hr)
  acceptsFrom_iff _ _ hq := acceptsFrom_withSink_iff hA hfits hq

/-- A deterministic automaton with a sink after its greatest vertex is a completion. -/
theorem isCompletion_withSink (hA : A.WellFormed) (hdet : A.isDeterministic = true)
    (hfits : A.greatestVertex.toNat + 1 < UInt32.size) :
    A.IsCompletion characters (A.greatestVertex + 1) (A.withSink characters) where
  toNat_sink := Vertex.toNat_add hfits
  contains_iff _ := contains_withSink
  isFinish_sink := isFinish_withSink.trans (isFinish_sink hA hfits)
  not_acceptsFrom_sink _ := not_acceptsFrom_sink hA hfits
  mem_successors_iff q s r := by
    simp only [mem_successors_withSink, Bool.eq_false_iff, ne_eq, hA.hasEntry_iff, not_exists]
  isDeterministic := isDeterministic_withSink hfits hA hdet
  isTotalOver := isTotalOver_withSink hfits hA hdet

/-- Only the last identifier has none after it. -/
theorem add_one_lt_size_iff : q.toNat + 1 < UInt32.size ↔ q ≠ 4294967295 := by
  have hlt : q.toNat < 4294967296 := q.toNat_lt
  rw [ne_eq, ← UInt32.toNat_inj]
  change q.toNat + 1 < 4294967296 ↔ ¬q.toNat = 4294967295
  omega

/-- Whatever completion returns extends what it was given. -/
theorem extends_of_totalizeOver (hA : A.WellFormed) {sink : Option Vertex} {B : Automaton}
    (h : A.totalizeOver characters = .ok (sink, B)) : B.Extends A := by
  rw [totalizeOver_eq] at h
  split at h
  · cases h
    exact ⟨rfl, fun _ hq => hq, fun _ => rfl, fun _ _ _ hr => hr, fun _ _ _ => Iff.rfl⟩
  · split at h
    · next hfits =>
      cases h
      exact extends_withSink hA hfits
    · cases h

/-- Completion fails only where no identifier comes after the greatest vertex. -/
theorem eq_of_totalizeOver_eq_error {e : GraphError} (h : A.totalizeOver characters = .error e) :
    A.greatestVertex = 4294967295 ∧ e = .identifierOverflow A.greatestVertex 1 := by
  rw [totalizeOver_eq] at h
  split at h
  · cases h
  · split at h
    · cases h
    · next hfull =>
      rw [add_one_lt_size_iff, ne_eq, Decidable.not_not] at hfull
      cases h
      exact ⟨hfull, rfl⟩

/-- On a deterministic automaton, whether it is total and whether an identifier is left decide what
completion returns. -/
theorem totalizeOver_of_isDeterministic (hA : A.WellFormed) (hdet : A.isDeterministic = true) :
    A.totalizeOver characters =
      if A.isTotalOver characters = true then .ok (none, A)
      else if A.greatestVertex ≠ 4294967295 then
        .ok (some (A.greatestVertex + 1), A.withSink characters)
      else .error (.identifierOverflow A.greatestVertex 1) := by
  simp only [totalizeOver_eq, hA.missingMoves_eq_nil_iff_isTotalOver hdet, add_one_lt_size_iff]

/-- Run in place, completion keeps the start, the finishes, the transitions and what every vertex
accepts. If it fails, the last identifier is taken and nothing has changed. If the automaton is
deterministic, completion changes nothing exactly if it is total already; otherwise it leaves a
completion with a sink, unless the last identifier is taken, and then it fails. -/
theorem totalizeOver_cases (A : Automaton) (hA : A.WellFormed) (characters : Alphabet) :
    (∀ sink B, (Update.totalizeOver characters).run A = .ok sink B → B.Extends A) ∧
      (∀ e B, (Update.totalizeOver characters).run A = .error e B →
        B = A ∧ A.greatestVertex = 4294967295 ∧ e = .identifierOverflow A.greatestVertex 1) ∧
      (A.isDeterministic = true →
        (∀ B, (Update.totalizeOver characters).run A = .ok none B ↔
          A.isTotalOver characters = true ∧ B = A) ∧
        (A.isTotalOver characters = false → A.greatestVertex ≠ 4294967295 →
          ∃ sink B, (Update.totalizeOver characters).run A = .ok (some sink) B ∧
            A.IsCompletion characters sink B) ∧
        ∀ e B, (Update.totalizeOver characters).run A = .error e B ↔
          A.isTotalOver characters = false ∧ A.greatestVertex = 4294967295 ∧
            e = .identifierOverflow A.greatestVertex 1 ∧ B = A) := by
  simp only [run_totalizeOver, commit_eq_ok_iff, commit_eq_error_iff]
  refine ⟨fun sink B h => extends_of_totalizeOver hA h, fun e B h => ?_, fun hdet => ?_⟩
  · obtain ⟨hlast, he⟩ := eq_of_totalizeOver_eq_error h.1
    exact ⟨h.2, hlast, he⟩
  · rw [totalizeOver_of_isDeterministic hA hdet]
    cases A.isTotalOver characters with
    | true => simp [eq_comm]
    | false =>
      by_cases hlast : A.greatestVertex = 4294967295
      · simp [hlast, eq_comm]
      · have hcompletion : A.IsCompletion characters _ _ :=
          isCompletion_withSink hA hdet (add_one_lt_size_iff.2 hlast)
        refine ⟨by simp [hlast], fun _ _ => ⟨_, _, ?_, hcompletion⟩, by simp [hlast]⟩
        simp [hlast]

/-- A deterministic automaton that reads `a` at its start only. -/
def lonelyStep : Automaton :=
  [⟨0, some 'a', 1⟩].foldl insertTransition (((singleton 0).insertVertex 1).insertFinish 1)

/-- The lonely step is well-formed. -/
theorem wellFormed_lonelyStep : lonelyStep.WellFormed := by
  refine WellFormed.foldl_insertTransition ?_ (by decide)
  exact ((WellFormed.singleton 0).insertVertex 1).insertFinish (by decide)

/-- The lonely step is completed by a sink over its own character and another one. At the last
identifier there is no sink, and the automaton is left as it was. -/
theorem totalizeOver_cases_lonelyStep :
    lonelyStep.WellFormed ∧ lonelyStep.isDeterministic = true ∧
      (∃ sink B, (Update.totalizeOver (ExtTreeSet.ofList ['a', 'b'])).run lonelyStep =
          .ok (some sink) B ∧
        lonelyStep.IsCompletion (ExtTreeSet.ofList ['a', 'b']) sink B ∧ B.Extends lonelyStep) ∧
      (Update.totalizeOver (ExtTreeSet.ofList ['a'])).run (singleton 4294967295) =
        .error (.identifierOverflow 4294967295 1) (singleton 4294967295) := by
  have hdet : lonelyStep.isDeterministic = true := by decide +kernel
  have hpartial : lonelyStep.isTotalOver (ExtTreeSet.ofList ['a', 'b']) = false := by decide +kernel
  have hgreatest : lonelyStep.greatestVertex = 1 :=
    greatestVertex_eq (by decide +kernel) (by decide +kernel)
  have hlast : (singleton 4294967295).greatestVertex = 4294967295 :=
    greatestVertex_eq (by decide +kernel) (by decide +kernel)
  obtain ⟨hextends, _, hcases⟩ := totalizeOver_cases lonelyStep wellFormed_lonelyStep
    (ExtTreeSet.ofList ['a', 'b'])
  obtain ⟨sink, B, hB, hcompletion⟩ := (hcases hdet).2.1 hpartial (by rw [hgreatest]; decide)
  obtain ⟨_, _, hcases'⟩ := totalizeOver_cases (singleton 4294967295) (WellFormed.singleton _)
    (ExtTreeSet.ofList ['a'])
  have hfails := ((hcases' (by decide +kernel)).2.2 _ _).2 ⟨by decide +kernel, hlast, rfl, rfl⟩
  rw [hlast] at hfails
  exact ⟨wellFormed_lonelyStep, hdet, ⟨sink, B, hB, hcompletion, hextends (some sink) B hB⟩, hfails⟩

end Automaton

end Recognizer
