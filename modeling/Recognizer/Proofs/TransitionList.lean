import Mathlib.Data.List.Sort
import Recognizer.Automaton.Lemmas

/-!
# The lists of vertices and transitions

Vertices and transitions are listed in strictly increasing order (`pairwise_lt_transitions`), so
nothing is listed twice and counting is a matter of membership: an automaton has as many transitions
as its list holds (`length_transitions`), and one whose vertices are the numbers below a bound lists
just these numbers (`vertices_map_toNat`).
-/

namespace Recognizer

open Std

/-- Transitions are compared part by part, the source first. -/
theorem Transition.compare_eq_lt_iff {a b : Transition Vertex} :
    compare a b = .lt ↔ compare a.source b.source = .lt ∨ a.source = b.source ∧
      (compare a.symbol b.symbol = .lt ∨
        a.symbol = b.symbol ∧ compare a.target b.target = .lt) := by
  change compareLex (compareOn source) (compareLex (compareOn symbol) (compareOn target)) a b = .lt ↔ _
  simp only [compareLex, compareOn, Ordering.then_eq_lt, Std.compare_eq_iff_eq]

namespace Outgoing

variable {out : Outgoing} {q : Vertex} {t : Transition Vertex}

/-- The transitions from a vertex are listed by symbol, then by target. -/
theorem pairwise_lt_transitions (out : Outgoing) (q : Vertex) :
    (out.transitions q).Pairwise fun t t' => compare t t' = .lt := by
  rw [transitions, List.pairwise_flatMap]
  constructor
  · intro entry _
    rw [List.pairwise_map]
    refine ExtTreeSet.ordered_toList.imp fun hlt => ?_
    exact Transition.compare_eq_lt_iff.2 (Or.inr ⟨rfl, Or.inr ⟨rfl, hlt⟩⟩)
  · refine ExtTreeMap.ordered_keys_toList.imp fun hlt t ht t' ht' => ?_
    obtain ⟨_, _, rfl⟩ := List.mem_map.1 ht
    obtain ⟨_, _, rfl⟩ := List.mem_map.1 ht'
    exact Transition.compare_eq_lt_iff.2 (Or.inr ⟨rfl, Or.inl hlt⟩)

/-- The listed transitions leave the vertex that they are listed for. -/
theorem source_eq_of_mem_transitions (ht : t ∈ out.transitions q) : t.source = q := by
  obtain ⟨entry, _, ht⟩ := List.mem_flatMap.1 ht
  obtain ⟨_, _, rfl⟩ := List.mem_map.1 ht
  rfl

/-- There are as many transitions as are counted. -/
theorem length_transitions (out : Outgoing) (q : Vertex) :
    (out.transitions q).length = out.transitionCount := by
  simp [transitions, transitionCount, List.length_flatMap, List.sum_eq_foldr, List.foldr_map]

end Outgoing

namespace Automaton

variable {A : Automaton} {n : Nat}

/-- The transitions are listed by source, then by symbol, then by target. -/
theorem pairwise_lt_transitions (A : Automaton) :
    A.transitions.Pairwise fun t t' => compare t t' = .lt := by
  rw [transitions, List.pairwise_flatMap]
  constructor
  · intro entry _
    exact Outgoing.pairwise_lt_transitions entry.2 entry.1
  · refine ExtTreeMap.ordered_keys_toList.imp fun hlt t ht t' ht' => ?_
    rw [Transition.compare_eq_lt_iff, Outgoing.source_eq_of_mem_transitions ht,
      Outgoing.source_eq_of_mem_transitions ht']
    exact Or.inl hlt

/-- No transition is listed twice. -/
theorem nodup_transitions (A : Automaton) : A.transitions.Nodup := by
  refine A.pairwise_lt_transitions.imp fun {t t'} hlt heq => ?_
  rw [heq] at hlt
  exact absurd hlt (by simp [ReflCmp.compare_self])

/-- The transitions that are counted are the listed ones. -/
theorem length_transitions (A : Automaton) : A.transitions.length = A.transitionCount := by
  simp [transitions, transitionCount, tables, List.length_flatMap, List.sum_eq_foldr, List.foldr_map,
    Outgoing.length_transitions]

/-- If the vertices are the numbers below a bound, they are listed as these numbers. -/
theorem vertices_map_toNat (hvertices : ∀ q, A.contains q = true ↔ q.toNat < n)
    (hn : n ≤ UInt32.size) : A.vertices.map UInt32.toNat = List.range n := by
  have hordered : (A.vertices.map UInt32.toNat).Pairwise (· < ·) := by
    rw [List.pairwise_map]
    refine ExtTreeMap.ordered_keys.imp fun hlt => ?_
    exact UInt32.lt_iff_toNat_lt.1 (Std.compare_eq_lt.1 hlt)
  refine hordered.eq_of_mem_iff List.pairwise_lt_range fun k => ?_
  simp only [List.mem_map, mem_vertices, hvertices, List.mem_range]
  constructor
  · rintro ⟨q, hq, rfl⟩
    exact hq
  · intro hk
    exact ⟨UInt32.ofNat k, by rwa [UInt32.toNat_ofNat_of_lt' (by omega)],
      UInt32.toNat_ofNat_of_lt' (by omega)⟩

/-- If the vertices are the numbers below a bound, there are as many of them. -/
theorem size_eq (hvertices : ∀ q, A.contains q = true ↔ q.toNat < n) (hn : n ≤ UInt32.size) :
    A.size = n := by
  have hlength := congrArg List.length (vertices_map_toNat hvertices hn)
  rwa [List.length_map, List.length_range, vertices, ExtTreeMap.length_keys] at hlength

end Automaton

end Recognizer
