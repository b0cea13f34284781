import Recognizer.Automaton.Lemmas

/-!
# Well-formed automata

In a well-formed automaton the start, the finishes and all targets are vertices, and the table holds
no empty set of targets. Every operation that checks its arguments keeps this; a table taken from
elsewhere as it is may lack it.

Main statement: a well-formed automaton is determined by its start, its vertices, its finishes and
its successors (`WellFormed.ext`), so nothing hides in the table. The insertions keep automata
well-formed provided that they insert between vertices.
-/

namespace Recognizer

open Std

namespace Automaton

/-- Nothing refers to a vertex that is not there, and no set of targets is empty. -/
structure WellFormed (A : Automaton) : Prop where
  contains_start : A.contains A.start = true
  contains_finish : ∀ q, A.isFinish q = true → A.contains q = true
  contains_target : ∀ q s, ∀ r ∈ A.successors q s, A.contains r = true
  ne_empty : ∀ (q : Vertex) (out : Outgoing) (s : Symbol) (targets : VertexSet),
    A.outgoing[q]? = some out → out[s]? = some targets → targets ≠ ∅

namespace WellFormed

variable {A B : Automaton}

/-- To be well-formed it is enough that every entry has a target. -/
theorem of_hasEntry (hstart : A.contains A.start = true)
    (hfinish : ∀ q, A.isFinish q = true → A.contains q = true)
    (htarget : ∀ q s, ∀ r ∈ A.successors q s, A.contains r = true)
    (hentry : ∀ q s, A.hasEntry q s = true → ∃ r, r ∈ A.successors q s) : A.WellFormed where
  contains_start := hstart
  contains_finish := hfinish
  contains_target := htarget
  ne_empty q out s targets hout htargets := by
    have hpresent : A.hasEntry q s = true := by
      rw [hasEntry_iff_getElem?_ne_none, hout, Option.getD_some, htargets]
      simp
    obtain ⟨r, hr⟩ := hentry q s hpresent
    intro hempty
    simp [successors, hout, htargets, hempty] at hr

/-- The automaton with one vertex is well-formed. -/
theorem singleton (q : Vertex) : WellFormed (singleton q) := by
  apply of_hasEntry <;> simp

/-- The symbols with an entry are those with a target. -/
theorem hasEntry_iff (hA : A.WellFormed) {q : Vertex} {s : Symbol} :
    A.hasEntry q s = true ↔ ∃ r, r ∈ A.successors q s := by
  constructor
  · intro h
    cases hout : A.outgoing[q]? with
    | none => simp [hasEntry, hout] at h
    | some out =>
      rw [hasEntry_iff_getElem?_ne_none, hout, Option.getD_some] at h
      obtain ⟨targets, htargets⟩ := Option.ne_none_iff_exists'.1 h
      have hne := hA.ne_empty q out s targets hout htargets
      rw [successors, hout, Option.getD_some, htargets, Option.getD_some]
      simpa [ExtTreeSet.eq_empty_iff_forall_not_mem] using hne
  · intro h
    exact hasEntry_of_mem_successors h.choose_spec

/-- Transitions lead between vertices. -/
theorem contains_ends (hA : A.WellFormed) {t : Transition Vertex} (ht : t ∈ A.transitions) :
    A.contains t.source = true ∧ A.contains t.target = true := by
  rw [mem_transitions_iff] at ht
  exact ⟨contains_of_mem_successors ht, hA.contains_target _ _ _ ht⟩

/-- Well-formed automata with the same start, vertices, finishes and successors are equal. -/
theorem ext (hA : A.WellFormed) (hB : B.WellFormed) (hstart : A.start = B.start)
    (hvertices : ∀ q, A.contains q = B.contains q) (hfinishes : ∀ q, A.isFinish q = B.isFinish q)
    (hsuccessors : ∀ q s, A.successors q s = B.successors q s) : A = B := by
  refine ext_of_hasEntry hstart hvertices hfinishes (fun q s => ?_) hsuccessors
  rw [Bool.eq_iff_iff, hA.hasEntry_iff, hB.hasEntry_iff, hsuccessors]

/-! ### What keeps automata well-formed -/

/-- A further vertex does no harm. -/
theorem insertVertex (hA : A.WellFormed) (q : Vertex) : (A.insertVertex q).WellFormed := by
  apply of_hasEntry
  · simp [hA.contains_start]
  · simp only [isFinish_insertVertex, contains_insertVertex]
    exact fun r hr => Or.inr (hA.contains_finish r hr)
  · simp only [successors_insertVertex, contains_insertVertex]
    exact fun p s r hr => Or.inr (hA.contains_target p s r hr)
  · simp only [hasEntry_insertVertex, successors_insertVertex]
    exact fun p s => hA.hasEntry_iff.1

/-- A vertex may become a finish. -/
theorem insertFinish (hA : A.WellFormed) {q : Vertex} (hq : A.contains q = true) :
    (A.insertFinish q).WellFormed := by
  apply of_hasEntry
  · exact hA.contains_start
  · intro r hr
    rcases isFinish_insertFinish.1 hr with rfl | hr
    · exact hq
    · exact hA.contains_finish r hr
  · exact hA.contains_target
  · exact fun p s => hA.hasEntry_iff.1

/-- Transitions between vertices may be added. -/
theorem foldl_insertTransition (hA : A.WellFormed) {ts : List (Transition Vertex)}
    (hts : ∀ t ∈ ts, A.contains t.source = true ∧ A.contains t.target = true) :
    (ts.foldl Automaton.insertTransition A).WellFormed := by
  apply of_hasEntry
  · simp [hA.contains_start]
  · intro q hq
    rw [isFinish, finishes_foldl_insertTransition] at hq
    exact contains_foldl_insertTransition.2 (Or.inr (hA.contains_finish q hq))
  · intro q s r hr
    rcases mem_successors_foldl_insertTransition.1 hr with hnew | hold
    · exact contains_foldl_insertTransition.2 (Or.inr (hts _ hnew).2)
    · exact contains_foldl_insertTransition.2 (Or.inr (hA.contains_target q s r hold))
  · intro q s hentry
    rcases hasEntry_foldl_insertTransition.1 hentry with ⟨t, ht, rfl, rfl⟩ | hold
    · exact ⟨t.target, mem_successors_foldl_insertTransition.2 (Or.inl ht)⟩
    · obtain ⟨r, hr⟩ := hA.hasEntry_iff.1 hold
      exact ⟨r, mem_successors_foldl_insertTransition.2 (Or.inr hr)⟩

/-- A transition between two vertices may be added. -/
theorem insertTransition (hA : A.WellFormed) {t : Transition Vertex}
    (hsource : A.contains t.source = true) (htarget : A.contains t.target = true) :
    (A.insertTransition t).WellFormed := by
  have hone : ∀ t' ∈ [t], A.contains t'.source = true ∧ A.contains t'.target = true := by
    simp [hsource, htarget]
  exact foldl_insertTransition hA hone

end WellFormed

end Automaton

end Recognizer
