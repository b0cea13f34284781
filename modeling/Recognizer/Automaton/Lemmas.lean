import Recognizer.Automaton.Transitions

/-!
# What the operations do to an automaton

An automaton is known by its start, its vertices, its finishes, its successors, and the symbols for
which its vertices have an entry at all. For each of the unchecked insertions there is one lemma for
each of these views, so that later proofs never look into the table. Inserting a list of transitions
adds up.
-/

namespace Recognizer

open Std

/-- The members of a set are listed once each. -/
theorem VertexSet.nodup_toList (states : VertexSet) : states.toList.Nodup :=
  ExtTreeSet.distinct_toList.imp fun hne heq => hne (Std.compare_eq_iff_eq.2 heq)

namespace Automaton

/-- Whether `q` has an entry for `s`, be it without targets. -/
def hasEntry (A : Automaton) (q : Vertex) (s : Symbol) : Bool :=
  (A.outgoing[q]?.getD ∅).contains s

variable {A B : Automaton} {q r : Vertex} {s : Symbol}

/-- The vertices are the keys of the table. -/
theorem contains_iff_getElem?_ne_none : A.contains q = true ↔ A.outgoing[q]? ≠ none := by
  rw [contains, ExtTreeMap.contains_iff_mem, ← ExtTreeMap.isSome_getElem?_iff_mem,
    Option.isSome_iff_ne_none]

/-- The listed vertices are those that the automaton contains. -/
@[simp]
theorem mem_vertices : q ∈ A.vertices ↔ A.contains q = true := by
  simp [vertices, contains]

/-- Transitions leave vertices only. -/
theorem contains_of_mem_successors (h : r ∈ A.successors q s) : A.contains q = true := by
  rw [contains_iff_getElem?_ne_none]
  intro hnone
  simp [successors, hnone] at h

/-- An entry is a key among the transitions that leave the vertex. -/
theorem hasEntry_iff_getElem?_ne_none :
    A.hasEntry q s = true ↔ (A.outgoing[q]?.getD ∅)[s]? ≠ none := by
  rw [hasEntry, ExtTreeMap.contains_iff_mem, ← ExtTreeMap.isSome_getElem?_iff_mem,
    Option.isSome_iff_ne_none]

/-- A symbol with a target has an entry. -/
theorem hasEntry_of_mem_successors (h : r ∈ A.successors q s) : A.hasEntry q s = true := by
  rw [hasEntry_iff_getElem?_ne_none]
  intro hnone
  simp [successors, hnone] at h

/-- Automata are equal if they have the same start, vertices, finishes, entries and successors. -/
theorem ext_of_hasEntry (hstart : A.start = B.start)
    (hvertices : ∀ q, A.contains q = B.contains q) (hfinishes : ∀ q, A.isFinish q = B.isFinish q)
    (hentries : ∀ q s, A.hasEntry q s = B.hasEntry q s)
    (hsuccessors : ∀ q s, A.successors q s = B.successors q s) : A = B := by
  have hfin : A.finishes = B.finishes := by
    apply ExtTreeSet.ext_mem
    intro q
    rw [← ExtTreeSet.contains_iff_mem, ← ExtTreeSet.contains_iff_mem]
    exact Bool.eq_iff_iff.1 (hfinishes q)
  have hout : A.outgoing = B.outgoing := by
    apply ExtTreeMap.ext_getElem?
    intro q
    have hq := hvertices q
    rw [Bool.eq_iff_iff, contains_iff_getElem?_ne_none, contains_iff_getElem?_ne_none] at hq
    cases ha : A.outgoing[q]? with
    | none =>
      have hb : B.outgoing[q]? = none := by simpa [ha] using hq
      exact hb.symm
    | some out =>
      obtain ⟨out', hb⟩ := Option.ne_none_iff_exists'.1 (hq.1 (by simp [ha]))
      rw [hb]
      congr 1
      apply ExtTreeMap.ext_getElem?
      intro s
      have hentry := hentries q s
      have hsuccessor := hsuccessors q s
      simp only [hasEntry, successors, ha, hb, Option.getD_some] at hentry hsuccessor
      rw [Bool.eq_iff_iff, ExtTreeMap.contains_iff_mem, ExtTreeMap.contains_iff_mem,
        ← ExtTreeMap.isSome_getElem?_iff_mem, ← ExtTreeMap.isSome_getElem?_iff_mem] at hentry
      cases hs : out[s]? <;> cases hs' : out'[s]? <;> simp_all
  cases A
  cases B
  simp_all

/-! ### The automaton with one vertex -/

/-- The single vertex is the start. -/
@[simp]
theorem start_singleton : (singleton q).start = q := rfl

/-- The automaton of one vertex has no other one. -/
@[simp]
theorem contains_singleton : (singleton q).contains r = true ↔ r = q := by
  rw [contains_iff_getElem?_ne_none, singleton, getElem?_amend]
  by_cases h : q = r
  · simp [h]
  · simp [h, Ne.symm h]

/-- A single vertex is no finish. -/
@[simp]
theorem isFinish_singleton : (singleton q).isFinish r = false := by
  simp [isFinish, singleton]

/-- A single vertex has no entries. -/
@[simp]
theorem hasEntry_singleton : (singleton q).hasEntry r s = false := by
  simp only [hasEntry, singleton, getElem?_amend]
  split <;> simp

/-- No transition leads away from a single vertex. -/
@[simp]
theorem not_mem_successors_singleton {p : Vertex} : p ∉ (singleton q).successors r s := by
  intro h
  have hentry := hasEntry_of_mem_successors h
  rw [hasEntry_singleton] at hentry
  cases hentry

/-! ### Insertion of a vertex -/

/-- A further vertex leaves the start as it is. -/
@[simp]
theorem start_insertVertex : (A.insertVertex q).start = A.start := rfl

/-- Just the given vertex is added. -/
@[simp]
theorem contains_insertVertex :
    (A.insertVertex q).contains r = true ↔ r = q ∨ A.contains r = true := by
  simp only [contains_iff_getElem?_ne_none, insertVertex, getElem?_amend]
  split <;> simp_all [eq_comm]

/-- A further vertex is no finish unless it was one. -/
@[simp]
theorem isFinish_insertVertex : (A.insertVertex q).isFinish r = A.isFinish r := rfl

/-- A further vertex adds no transition. -/
@[simp]
theorem successors_insertVertex : (A.insertVertex q).successors r s = A.successors r s := by
  simp only [successors, insertVertex, getElem?_amend]
  split <;> simp_all

/-- A further vertex adds no entry. -/
@[simp]
theorem hasEntry_insertVertex : (A.insertVertex q).hasEntry r s = A.hasEntry r s := by
  simp only [hasEntry, insertVertex, getElem?_amend]
  split <;> simp_all

/-! ### Insertion of many vertices -/

variable {ι : Type} {is : List ι} {f : ι → Vertex}

/-- Further vertices leave the start as it is. -/
@[simp]
theorem start_foldl_insertVertex :
    (is.foldl (fun A i => A.insertVertex (f i)) A).start = A.start := by
  induction is generalizing A with
  | nil => rfl
  | cons i rest ih => rw [List.foldl_cons, ih, start_insertVertex]

/-- Just the given vertices are added. -/
@[simp]
theorem contains_foldl_insertVertex :
    (is.foldl (fun A i => A.insertVertex (f i)) A).contains r = true ↔
      (∃ i ∈ is, r = f i) ∨ A.contains r = true := by
  induction is generalizing A with
  | nil => simp
  | cons i rest ih =>
    rw [List.foldl_cons, ih, contains_insertVertex]
    simp [or_assoc, or_left_comm]

/-- Further vertices add no transitions. -/
@[simp]
theorem successors_foldl_insertVertex :
    (is.foldl (fun A i => A.insertVertex (f i)) A).successors r s = A.successors r s := by
  induction is generalizing A with
  | nil => rfl
  | cons i rest ih => rw [List.foldl_cons, ih, successors_insertVertex]

/-- Further vertices add no entries. -/
@[simp]
theorem hasEntry_foldl_insertVertex :
    (is.foldl (fun A i => A.insertVertex (f i)) A).hasEntry r s = A.hasEntry r s := by
  induction is generalizing A with
  | nil => rfl
  | cons i rest ih => rw [List.foldl_cons, ih, hasEntry_insertVertex]

/-! ### Insertion of a finish -/

/-- A further finish leaves the start as it is. -/
@[simp]
theorem start_insertFinish : (A.insertFinish q).start = A.start := rfl

/-- A further finish adds no vertex. -/
@[simp]
theorem contains_insertFinish : (A.insertFinish q).contains r = A.contains r := rfl

/-- Just the given vertex becomes a finish. -/
@[simp]
theorem isFinish_insertFinish :
    (A.insertFinish q).isFinish r = true ↔ r = q ∨ A.isFinish r = true := by
  rw [eq_comm (a := r)]
  simp [isFinish, insertFinish]

/-- A further finish adds no transition. -/
@[simp]
theorem successors_insertFinish : (A.insertFinish q).successors r s = A.successors r s := rfl

/-- A further finish adds no entry. -/
@[simp]
theorem hasEntry_insertFinish : (A.insertFinish q).hasEntry r s = A.hasEntry r s := rfl

/-! ### Insertion of a transition -/

variable {t : Transition Vertex}

/-- A further transition leaves the start as it is. -/
@[simp]
theorem start_insertTransition : (A.insertTransition t).start = A.start := rfl

/-- A further transition makes its source a vertex, and nothing else. -/
@[simp]
theorem contains_insertTransition :
    (A.insertTransition t).contains r = true ↔ r = t.source ∨ A.contains r = true := by
  simp only [contains_iff_getElem?_ne_none, insertTransition, getElem?_amend]
  split <;> simp_all [eq_comm]

/-- A further transition adds no finish. -/
@[simp]
theorem isFinish_insertTransition : (A.insertTransition t).isFinish r = A.isFinish r := rfl

/-- Just the given transition is added. -/
@[simp]
theorem mem_successors_insertTransition :
    r ∈ (A.insertTransition t).successors q s ↔ t = ⟨q, s, r⟩ ∨ r ∈ A.successors q s := by
  obtain ⟨source, symbol, target⟩ := t
  simp only [successors, insertTransition, getElem?_amend, Transition.mk.injEq]
  by_cases hq : source = q
  · subst hq
    by_cases hs : symbol = s
    · subst hs
      simp [Outgoing.insertTarget, getElem?_amend, ExtTreeSet.mem_insert]
    · simp [Outgoing.insertTarget, getElem?_amend, hs]
  · simp [hq]

/-- A further transition adds the entry for its source and symbol. -/
@[simp]
theorem hasEntry_insertTransition :
    (A.insertTransition t).hasEntry q s = true ↔
      (q = t.source ∧ s = t.symbol) ∨ A.hasEntry q s = true := by
  simp only [hasEntry_iff_getElem?_ne_none, insertTransition, getElem?_amend]
  by_cases hq : t.source = q
  · subst hq
    by_cases hs : t.symbol = s
    · simp [Outgoing.insertTarget, getElem?_amend, hs]
    · simp [Outgoing.insertTarget, getElem?_amend, hs, Ne.symm hs]
  · simp [hq, Ne.symm hq]

/-! ### Insertion of many transitions -/

variable {ts : List (Transition Vertex)}

/-- Further transitions leave the start as it is. -/
@[simp]
theorem start_foldl_insertTransition : (ts.foldl insertTransition A).start = A.start := by
  induction ts generalizing A with
  | nil => rfl
  | cons t rest ih => rw [List.foldl_cons, ih, start_insertTransition]

/-- Further transitions add no finishes. -/
@[simp]
theorem finishes_foldl_insertTransition : (ts.foldl insertTransition A).finishes = A.finishes := by
  induction ts generalizing A with
  | nil => rfl
  | cons t rest ih => rw [List.foldl_cons, ih, insertTransition]

/-- Further transitions make their sources vertices, and nothing else. -/
@[simp]
theorem contains_foldl_insertTransition :
    (ts.foldl insertTransition A).contains r = true ↔
      (∃ t ∈ ts, r = t.source) ∨ A.contains r = true := by
  induction ts generalizing A with
  | nil => simp
  | cons t rest ih =>
    rw [List.foldl_cons, ih, contains_insertTransition]
    simp [or_assoc, or_left_comm]

/-- Just the given transitions are added. -/
@[simp]
theorem mem_successors_foldl_insertTransition :
    r ∈ (ts.foldl insertTransition A).successors q s ↔ ⟨q, s, r⟩ ∈ ts ∨ r ∈ A.successors q s := by
  induction ts generalizing A with
  | nil => simp
  | cons t rest ih =>
    rw [List.foldl_cons, ih, mem_successors_insertTransition, List.mem_cons, eq_comm (a := t),
      or_left_comm, or_assoc]

/-- Further transitions add the entries for their sources and symbols. -/
@[simp]
theorem hasEntry_foldl_insertTransition :
    (ts.foldl insertTransition A).hasEntry q s = true ↔
      (∃ t ∈ ts, q = t.source ∧ s = t.symbol) ∨ A.hasEntry q s = true := by
  induction ts generalizing A with
  | nil => simp
  | cons t rest ih =>
    rw [List.foldl_cons, ih, hasEntry_insertTransition]
    simp [or_assoc, or_left_comm]

end Automaton

end Recognizer
