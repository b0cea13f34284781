import Recognizer.Automaton.Isomorphism
import Recognizer.Proofs.Naming.Insertion

/-!
# Vertices that go by the same name

Where distinct vertices have distinct names, each vertex of another automaton can be taken to the one
that goes by its name. If what is seen of one automaton by names is seen of the other too, this map
keeps the start, the finishes and the transitions (`isHomomorphism_matchNames`). If names are distinct
on both sides, automata that count as equal differ only in their identifiers
(`isIsomorphism_matchNames`).
-/

namespace Recognizer

open Std

namespace NamedAutomaton

variable {L M : NamedAutomaton} {name : String} {q r : Vertex}

/-- Distinct vertices have distinct names. -/
def HasDistinctNames (L : NamedAutomaton) : Prop :=
  Set.InjOn L.name {q | L.automaton.contains q = true}

/-- Labelled vertices have distinct names. -/
theorem IsLabelled.hasDistinctNames (hL : L.IsLabelled) : L.HasDistinctNames :=
  fun _ hq _ hr h => hL.eq_of_name_eq hq hr h

namespace HasDistinctNames

variable (hL : L.HasDistinctNames) (hwell : L.automaton.WellFormed)
include hL hwell

/-- A vertex is a finish if its name is that of a finish. -/
theorem name_mem_finishNames_iff (hq : L.automaton.contains q = true) :
    L.name q ∈ L.finishNames ↔ L.automaton.isFinish q = true := by
  rw [mem_finishNames]
  constructor
  · rintro ⟨p, hp, hname⟩
    rwa [← hL (hwell.contains_finish p hp) hq hname]
  · exact fun h => ⟨q, h, rfl⟩

/-- A transition between vertices is there if it is seen between their names. -/
theorem mem_transitionsByName_iff (hq : L.automaton.contains q = true)
    (hr : L.automaton.contains r = true) {s : Symbol} :
    ⟨L.name q, s, L.name r⟩ ∈ L.transitionsByName ↔ r ∈ L.automaton.successors q s := by
  rw [mem_transitionsByName]
  constructor
  · rintro ⟨u, hu, hname⟩
    rw [Automaton.mem_transitions_iff] at hu
    simp only [Transition.rename, Transition.mk.injEq] at hname
    obtain ⟨hsource, rfl, htarget⟩ := hname
    rwa [← hL (Automaton.contains_of_mem_successors hu) hq hsource,
      ← hL (hwell.contains_target _ _ _ hu) hr htarget]
  · intro h
    exact ⟨⟨q, s, r⟩, Automaton.mem_transitions_iff.2 h, rfl⟩

end HasDistinctNames

/-- The first vertex that goes by a name. -/
def vertexNamed? (L : NamedAutomaton) (name : String) : Option Vertex :=
  L.automaton.vertices.find? fun q => L.name q == name

/-- The vertex of `M` that goes by the name of `q`. -/
def matchNames (L M : NamedAutomaton) (q : Vertex) : Vertex :=
  (M.vertexNamed? (L.name q)).getD q

/-- No other vertex goes by the name. -/
theorem matchNames_eq (hM : M.HasDistinctNames) (hr : M.automaton.contains r = true)
    (h : M.name r = L.name q) : L.matchNames M q = r := by
  have hfound : M.vertexNamed? (L.name q) = some r := by
    rw [vertexNamed?]
    cases hfind : M.automaton.vertices.find? fun p => M.name p == L.name q with
    | none =>
      have hnone := List.find?_eq_none.1 hfind r (Automaton.mem_vertices.2 hr)
      exact absurd (beq_iff_eq.2 h) hnone
    | some p =>
      have hp : M.automaton.contains p = true :=
        Automaton.mem_vertices.1 (List.mem_of_find?_eq_some hfind)
      have hname := List.find?_some hfind
      simp only [beq_iff_eq] at hname
      exact congrArg some (hM hp hr (hname.trans h.symm))
  rw [matchNames, hfound, Option.getD_some]

/-- If the start goes by the same name, and all finishes and transitions are seen of `M` too, the map
along names keeps them. -/
theorem isHomomorphism_matchNames (hM : M.HasDistinctNames) (hwell : M.automaton.WellFormed)
    (hstart : M.startName = L.startName) (hfinishes : ∀ name ∈ L.finishNames, name ∈ M.finishNames)
    (htransitions : ∀ t ∈ L.transitionsByName, t ∈ M.transitionsByName) :
    Automaton.IsHomomorphism (L.matchNames M) L.automaton M.automaton where
  start := matchNames_eq hM hwell.contains_start hstart
  isFinish q hq := by
    obtain ⟨r, hr, hname⟩ := mem_finishNames.1 (hfinishes _ (mem_finishNames.2 ⟨q, hq, rfl⟩))
    rw [matchNames_eq hM (hwell.contains_finish r hr) hname]
    exact hr
  mem_successors q s r hr := by
    have ht : (⟨q, s, r⟩ : Transition Vertex) ∈ L.automaton.transitions :=
      Automaton.mem_transitions_iff.2 hr
    have hnamed := htransitions _ (mem_transitionsByName.2 ⟨_, ht, rfl⟩)
    obtain ⟨u, hu, hname⟩ := mem_transitionsByName.1 hnamed
    rw [Automaton.mem_transitions_iff] at hu
    simp only [Transition.rename, Transition.mk.injEq] at hname
    obtain ⟨hsource, rfl, htarget⟩ := hname
    rw [matchNames_eq hM (Automaton.contains_of_mem_successors hu) hsource,
      matchNames_eq hM (hwell.contains_target _ _ _ hu) htarget]
    exact hu

/-- Automata that count as equal, and have distinct names for distinct vertices, are the same up to
the identifiers behind the names. -/
theorem isIsomorphism_matchNames (hL : L.HasDistinctNames) (hwellL : L.automaton.WellFormed)
    (hM : M.HasDistinctNames) (hwellM : M.automaton.WellFormed) (h : (L == M) = true) :
    Automaton.IsIsomorphism (L.matchNames M) L.automaton M.automaton ∧
      ∀ q, L.automaton.contains q = true → M.name (L.matchNames M q) = L.name q := by
  obtain ⟨hstart, hvertices, hfinishes, htransitions⟩ := beq_iff.1 h
  -- Every name has a vertex on the other side, because the names of vertices are compared too.
  have hmatch {q : Vertex} (hq : L.automaton.contains q = true) :
      M.automaton.contains (L.matchNames M q) = true ∧ M.name (L.matchNames M q) = L.name q := by
    have hname : L.name q ∈ M.vertexNames := hvertices ▸ mem_vertexNames.2 ⟨q, hq, rfl⟩
    obtain ⟨r, hr, hname⟩ := mem_vertexNames.1 hname
    rw [matchNames_eq hM hr hname]
    exact ⟨hr, hname⟩
  refine ⟨⟨⟨fun q hq => (hmatch hq).1, fun q hq r hr heq => ?_, fun r hr => ?_⟩,
    matchNames_eq hM hwellM.contains_start hstart.symm, fun q hq => ?_, fun q s r hq hr => ?_⟩,
    fun q hq => (hmatch hq).2⟩
  · exact hL hq hr ((hmatch hq).2.symm.trans (heq ▸ (hmatch hr).2))
  · have hname : M.name r ∈ L.vertexNames := hvertices ▸ mem_vertexNames.2 ⟨r, hr, rfl⟩
    obtain ⟨q, hq, hname⟩ := mem_vertexNames.1 hname
    exact ⟨q, hq, matchNames_eq hM hr hname.symm⟩
  · rw [← hM.name_mem_finishNames_iff hwellM (hmatch hq).1,
      ← hL.name_mem_finishNames_iff hwellL hq, (hmatch hq).2, hfinishes]
  · rw [← hM.mem_transitionsByName_iff hwellM (hmatch hq).1 (hmatch hr).1,
      ← hL.mem_transitionsByName_iff hwellL hq hr, (hmatch hq).2, (hmatch hr).2, htransitions]

end NamedAutomaton

end Recognizer
