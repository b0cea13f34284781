import Recognizer.Automaton.Path
import Recognizer.Automaton.WellFormed

/-!
# Runs and determinism

A run is the list of the transitions on a path, so that two runs on one word can be told apart where
a path only says that there is one. Paths are the words that runs spell (`path_iff_exists_run`).

In a deterministic automaton a word determines the run and with it the end of the run
(`IsRun.eq_of_isDeterministic`).
-/

namespace Recognizer

open Std

/-- The word that a list of transitions spells. -/
def spell {ν : Type} (run : List (Transition ν)) : List Char :=
  run.flatMap fun t => t.symbol.toList

/-- A run spells the symbol of its first transition, then what the rest spells. -/
@[simp]
theorem spell_cons {ν : Type} {t : Transition ν} {run : List (Transition ν)} :
    spell (t :: run) = t.symbol.toList ++ spell run := by
  simp [spell]

namespace Automaton

/-- The listed transitions lead from the first vertex to the second, one after the other. -/
def IsRun (A : Automaton) (q : Vertex) : List (Transition Vertex) → Vertex → Prop
  | [], p => q = p
  | t :: run, p => t.source = q ∧ t ∈ A.transitions ∧ A.IsRun t.target run p

variable {A : Automaton} {p p' q r : Vertex} {c : Char} {w : List Char}
variable {run run' : List (Transition Vertex)}

/-- A run is a path on the word that it spells. -/
theorem IsRun.path (h : A.IsRun q run p) : A.Path q (spell run) p := by
  induction run generalizing q with
  | nil =>
    have hq : q = p := h
    exact hq ▸ Path.nil q
  | cons t run ih =>
    obtain ⟨rfl, ht, hrest⟩ := h
    rw [spell_cons]
    exact Path.step (mem_transitions_iff.1 ht) (ih hrest)

/-- The words of paths are those that runs spell. -/
theorem path_iff_exists_run : A.Path q w p ↔ ∃ run, A.IsRun q run p ∧ spell run = w := by
  apply Iff.intro
  · intro h
    induction h with
    | nil q => exact ⟨[], rfl, rfl⟩
    | @step q r p s w first _ ih =>
      obtain ⟨run, hrun, rfl⟩ := ih
      exact ⟨⟨q, s, r⟩ :: run, ⟨rfl, mem_transitions_iff.2 first, hrun⟩, spell_cons⟩
  · intro h
    obtain ⟨run, hrun, rfl⟩ := h
    exact hrun.path

/-! ### Determinism -/

/-- The table of a vertex is listed. -/
theorem mem_tables {out : Outgoing} :
    out ∈ A.tables ↔ ∃ q : Vertex, A.outgoing[q]? = some out := by
  simp [tables, ExtTreeMap.mem_toList_iff_getElem?_eq_some]

/-- Nothing in the table is silent exactly if no vertex has a silent entry. -/
theorem isEpsilonFree_iff : A.isEpsilonFree = true ↔ ∀ q, A.hasEntry q none = false := by
  simp only [isEpsilonFree, List.all_eq_true, mem_tables, hasEntry]
  apply Iff.intro
  · intro h q
    cases hout : A.outgoing[q]? with
    | none => simp
    | some out => simpa using h out ⟨q, hout⟩
  · intro h out hout
    obtain ⟨q, hout⟩ := hout
    simpa [hout] using h q

/-- A set has at most one member exactly if any two members are equal. -/
theorem size_le_one_iff {targets : VertexSet} :
    targets.size ≤ 1 ↔ ∀ q ∈ targets, ∀ r ∈ targets, q = r := by
  have hnodup : targets.toList.Nodup := targets.nodup_toList
  rw [← ExtTreeSet.length_toList]
  simp only [← ExtTreeSet.mem_toList]
  apply Iff.intro
  · intro h q hq r hr
    match hlist : targets.toList, h with
    | [], _ => simp [hlist] at hq
    | [m], _ =>
      rw [hlist, List.mem_singleton] at hq hr
      rw [hq, hr]
  · intro h
    match hlist : targets.toList with
    | [] => simp
    | [m] => simp
    | m :: n :: rest =>
      rw [hlist] at h hnodup
      have heq : m = n := h m List.mem_cons_self n (List.mem_cons_of_mem _ List.mem_cons_self)
      simp [heq] at hnodup

/-- Determinism in terms of entries and successors. -/
theorem isDeterministic_iff_hasEntry :
    A.isDeterministic = true ↔ (∀ q, A.hasEntry q none = false) ∧
      ∀ q s, ∀ r ∈ A.successors q s, ∀ r' ∈ A.successors q s, r = r' := by
  rw [isDeterministic, Bool.and_eq_true, isEpsilonFree_iff]
  refine and_congr_right fun _ => ?_
  simp only [List.all_eq_true, mem_tables, decide_eq_true_eq, size_le_one_iff, Prod.forall,
    ExtTreeMap.mem_toList_iff_getElem?_eq_some]
  apply Iff.intro
  · intro h q s
    cases hout : A.outgoing[q]? with
    | none => simp [successors, hout]
    | some out =>
      cases htargets : out[s]? with
      | none => simp [successors, hout, htargets]
      | some targets => simpa [successors, hout, htargets] using h out ⟨q, hout⟩ s targets htargets
  · intro h out hout s targets htargets
    obtain ⟨q, hout⟩ := hout
    simpa [successors, hout, htargets] using h q s

/-- A well-formed automaton is deterministic if it has no silent step and at most one successor for
each vertex and symbol. -/
theorem WellFormed.isDeterministic_iff (hA : A.WellFormed) :
    A.isDeterministic = true ↔ (∀ q r, r ∉ A.successors q none) ∧
      ∀ q s, ∀ r ∈ A.successors q s, ∀ r' ∈ A.successors q s, r = r' := by
  rw [isDeterministic_iff_hasEntry]
  refine and_congr_left fun _ => forall_congr' fun q => ?_
  rw [Bool.eq_false_iff, ne_eq, hA.hasEntry_iff, not_exists]

/-- No silent step leaves a vertex of a deterministic automaton. -/
theorem not_mem_successors_of_isDeterministic (h : A.isDeterministic = true) :
    r ∉ A.successors q none := by
  intro hr
  have hentry := (isDeterministic_iff_hasEntry.1 h).1 q
  rw [hasEntry_of_mem_successors hr] at hentry
  cases hentry

/-- In a deterministic automaton the runs from one vertex on one word are equal. -/
theorem IsRun.eq_of_isDeterministic (hdet : A.isDeterministic = true) (h : A.IsRun q run p)
    (h' : A.IsRun q run' p') (hspell : spell run = spell run') : run = run' ∧ p = p' := by
  have hletter : ∀ t ∈ A.transitions, ∃ c, t.symbol = some c := by
    intro t ht
    cases hs : t.symbol with
    | none =>
      have htarget := mem_transitions_iff.1 ht
      rw [hs] at htarget
      exact absurd htarget (not_mem_successors_of_isDeterministic hdet)
    | some c => exact ⟨c, rfl⟩
  induction run generalizing q run' with
  | nil =>
    cases run' with
    | nil => exact ⟨rfl, Eq.trans (Eq.symm h) h'⟩
    | cons t' run' =>
      obtain ⟨c, hc⟩ := hletter t' h'.2.1
      simp [spell, hc] at hspell
  | cons t run ih =>
    obtain ⟨hq, ht, hrest⟩ := h
    obtain ⟨c, hc⟩ := hletter t ht
    cases run' with
    | nil => simp [spell, hc] at hspell
    | cons t' run' =>
      obtain ⟨hq', ht', hrest'⟩ := h'
      obtain ⟨c', hc'⟩ := hletter t' ht'
      simp only [spell_cons, hc, hc', Option.toList_some, List.singleton_append,
        List.cons.injEq] at hspell
      obtain ⟨rfl, hspell⟩ := hspell
      have htarget : t.target = t'.target := by
        refine (isDeterministic_iff_hasEntry.1 hdet).2 q (some c) _ ?_ _ ?_
        · rw [← hq, ← hc]
          exact mem_transitions_iff.1 ht
        · rw [← hq', ← hc']
          exact mem_transitions_iff.1 ht'
      have heq : t = t' := by
        cases t
        cases t'
        simp_all
      obtain ⟨hrun, hp⟩ := ih hrest (htarget ▸ hrest') hspell
      exact ⟨by rw [heq, hrun], hp⟩

/-- In a deterministic automaton a word leads to one vertex only. -/
theorem eq_of_path_of_isDeterministic (hdet : A.isDeterministic = true) (hp : A.Path q w p)
    (hr : A.Path q w r) : p = r := by
  obtain ⟨run, hrun, rfl⟩ := path_iff_exists_run.1 hp
  obtain ⟨run', hrun', hspell⟩ := path_iff_exists_run.1 hr
  exact (hrun.eq_of_isDeterministic hdet hrun' hspell.symm).2

end Automaton

end Recognizer
