import Recognizer.Automaton.Lemmas
import Recognizer.NamedAutomaton.Basic

/-!
# What can be seen of an automaton by names

The names of the start, of the vertices and of the finishes, and the transitions between names, as
statements about membership. Two automata count as equal exactly if these four agree.
-/

namespace Recognizer

open Std

namespace NamedAutomaton

variable {L M : NamedAutomaton} {name : String} {q : Vertex} {t : Transition String}

/-- The names of vertices are those of the vertices. -/
@[simp]
theorem mem_vertexNames :
    name ∈ L.vertexNames ↔ ∃ q, L.automaton.contains q = true ∧ L.name q = name := by
  simp [vertexNames]

/-- The names of finishes are those of the finishes. -/
@[simp]
theorem mem_finishNames :
    name ∈ L.finishNames ↔ ∃ q, L.automaton.isFinish q = true ∧ L.name q = name := by
  simp [finishNames, Automaton.isFinish]

/-- The transitions by name are the transitions between the names of their ends. -/
@[simp]
theorem mem_transitionsByName :
    t ∈ L.transitionsByName ↔ ∃ u ∈ L.automaton.transitions, u.rename L.name = t := by
  simp [transitionsByName]

/-- A further finish adds its name. -/
theorem mem_finishNames_insertFinish :
    name ∈ { L with automaton := L.automaton.insertFinish q }.finishNames ↔
      name ∈ L.finishNames ∨ L.name q = name := by
  rw [mem_finishNames, mem_finishNames, or_comm]
  simp only [Automaton.isFinish_insertFinish, or_and_right, exists_or, exists_eq_left]
  rfl

/-- A further transition adds what it is by names. -/
theorem mem_transitionsByName_insertTransition {u : Transition Vertex} :
    t ∈ { L with automaton := L.automaton.insertTransition u }.transitionsByName ↔
      t ∈ L.transitionsByName ∨ u.rename L.name = t := by
  have hmem (v : Transition Vertex) :
      v ∈ (L.automaton.insertTransition u).transitions ↔ v = u ∨ v ∈ L.automaton.transitions := by
    rw [Automaton.mem_transitions_iff, Automaton.mem_successors_insertTransition,
      Automaton.mem_transitions_iff, eq_comm]
  rw [mem_transitionsByName, mem_transitionsByName, or_comm]
  simp only [hmem, or_and_right, exists_or, exists_eq_left]
  rfl

/-- Two automata count as equal if the names of start, vertices and finishes and the transitions by
name are the same. -/
theorem beq_iff :
    (L == M) = true ↔ L.startName = M.startName ∧ L.vertexNames = M.vertexNames ∧
      L.finishNames = M.finishNames ∧ L.transitionsByName = M.transitionsByName := by
  change (L.startName == M.startName && L.vertexNames == M.vertexNames &&
    L.finishNames == M.finishNames && L.transitionsByName == M.transitionsByName) = true ↔ _
  simp only [Bool.and_eq_true, beq_iff_eq, and_assoc]

end NamedAutomaton

end Recognizer
