import Recognizer.Proofs.Completion
import Recognizer.Proofs.Determinization
import Recognizer.Proofs.Elimination

/-!
# Productive automata

A vertex is dead if nothing is accepted from it, and an automaton is productive if it has no dead
vertex. Elimination and the subset construction trim nothing, yet they keep automata productive:
elimination keeps what every vertex accepts, and a position of the subset construction accepts what
the members of its set accept (`acceptsFrom_determinize_iff`), where no set is empty.

Completion adds a dead vertex, the sink, and no other (`forall_not_acceptsFrom_withSink_iff`).
-/

namespace Recognizer

namespace Automaton

variable {A : Automaton} {characters : Alphabet} {i j p q : Vertex} {v w : List Char}
variable {states : VertexSet}

/-- Something is accepted from every vertex. -/
def Productive (A : Automaton) : Prop :=
  ∀ q, A.contains q = true → ∃ w, A.AcceptsFrom q w

/-- Elimination keeps automata productive. -/
theorem Productive.eliminateEpsilon (h : A.Productive) : A.eliminateEpsilon.Productive := by
  intro q hq
  rw [contains_eliminateEpsilon] at hq
  obtain ⟨w, hw⟩ := h q hq
  exact ⟨w, acceptsFrom_eliminateEpsilon_iff.2 hw⟩

section Subsets

variable (hfew : A.determinize.subsets.length < UInt32.size)
include hfew

/-- Every position is reached on a word that reads its set. -/
theorem exists_readBy_of_subset (hA : A.WellFormed) (hi : A.determinize.subset i = some states) :
    ∃ w, A.determinize.automaton.Path 0 w i ∧ A.ReadBy w states := by
  have hcontains : A.determinize.automaton.contains i = true :=
    (contains_determinize_iff_exists hfew).2 ⟨states, hi⟩
  obtain ⟨w, hpath⟩ := exists_path_of_contains hfew hA hcontains
  obtain ⟨states', hstates', hread⟩ := readBy_of_path hfew hpath
  rw [hi, Option.some.injEq] at hstates'
  exact ⟨w, hpath, hstates' ▸ hread⟩

/-- From a position the same words are accepted as from the members of its set. -/
theorem acceptsFrom_determinize_iff (hA : A.WellFormed)
    (hi : A.determinize.subset i = some states) :
    A.determinize.automaton.AcceptsFrom i v ↔ ∃ q ∈ states, A.AcceptsFrom q v := by
  -- Both sides are compared on the words from the start that pass the position.
  obtain ⟨u, hu, hread⟩ := exists_readBy_of_subset hfew hA hi
  constructor
  · rintro ⟨j, hfinish, hpath⟩
    obtain ⟨last, hlast, hreadlast⟩ := readBy_of_path hfew (hu.append hpath)
    obtain ⟨p, hp, hpfinish⟩ := (isFinish_determinize_of_subset hfew hlast).1 hfinish
    obtain ⟨q, hq, hqp⟩ := path_append_iff.1 ((hreadlast p).1 hp)
    exact ⟨q, (hread q).2 hq, p, hpfinish, hqp⟩
  · rintro ⟨q, hq, p, hpfinish, hqp⟩
    have hp : A.Path A.start (u ++ v) p := ((hread q).1 hq).append hqp
    obtain ⟨j, last, hj, hlast, hreadlast⟩ := exists_path_of_path hfew hA hp
    obtain ⟨m, hm, hmj⟩ := path_append_iff.1 hj
    obtain rfl := eq_of_path_of_isDeterministic (isDeterministic_determinize hfew) hu hm
    exact ⟨j, (isFinish_determinize_of_subset hfew hlast).2 ⟨p, (hreadlast p).2 hp, hpfinish⟩, hmj⟩

/-- The subset construction keeps automata productive. -/
theorem Productive.determinize (hA : A.WellFormed) (h : A.Productive) :
    A.determinize.automaton.Productive := by
  intro i hi
  obtain ⟨states, hstates⟩ := (contains_determinize_iff_exists hfew).1 hi
  obtain ⟨q, hq⟩ := hA.exists_mem_of_mem_reachableSubsets (List.mem_of_getElem? hstates)
  obtain ⟨u, _, hread⟩ := exists_readBy_of_subset hfew hA hstates
  obtain ⟨v, hv⟩ := h q (hA.contains_of_path hA.contains_start ((hread q).1 hq))
  exact ⟨v, (acceptsFrom_determinize_iff hfew hA hstates).2 ⟨q, hq, hv⟩⟩

end Subsets

/-- In a productive automaton with a sink, the sink is the dead vertex. -/
theorem forall_not_acceptsFrom_withSink_iff (hA : A.WellFormed)
    (hfits : A.greatestVertex.toNat + 1 < UInt32.size) (h : A.Productive)
    (hq : (A.withSink characters).contains q = true) :
    (∀ w, ¬ (A.withSink characters).AcceptsFrom q w) ↔ q = A.greatestVertex + 1 := by
  constructor
  · intro hdead
    refine (contains_withSink.1 hq).resolve_right fun hold => ?_
    obtain ⟨w, hw⟩ := h q hold
    exact hdead w ((acceptsFrom_withSink_iff hA hfits hold).2 hw)
  · rintro rfl w
    exact not_acceptsFrom_sink hA hfits

end Automaton

end Recognizer
