import Recognizer.Automaton.Basic

/-!
# The transitions of an automaton

The list of all transitions in canonical order: by source, then symbol with the silent one first,
then target. `mem_transitions_iff` says that it holds exactly the triples found by `successors`.

The other functions answer questions about the table as it is stored: a symbol that is present
without any target still counts as a symbol of its vertex.
-/

namespace Recognizer

open Std

/-- The transitions from `source` recorded in `out`, by symbol and target. -/
def Outgoing.transitions (out : Outgoing) (source : Vertex) : List (Transition Vertex) :=
  out.toList.flatMap fun (symbol, targets) => targets.toList.map (⟨source, symbol, ·⟩)

/-- The number of transitions recorded in `out`. -/
def Outgoing.transitionCount (out : Outgoing) : Nat :=
  out.toList.foldr (fun entry count => entry.2.size + count) 0

namespace Automaton

/-- All transitions in canonical order. -/
def transitions (A : Automaton) : List (Transition Vertex) :=
  A.outgoing.toList.flatMap fun (source, out) => Outgoing.transitions out source

/-- The tables of all vertices, by ascending vertex. -/
def tables (A : Automaton) : List Outgoing :=
  A.outgoing.toList.map Prod.snd

/-- The number of transitions. -/
def transitionCount (A : Automaton) : Nat :=
  A.tables.foldr (fun out count => Outgoing.transitionCount out + count) 0

/-- The characters that label transitions. -/
def alphabet (A : Automaton) : Alphabet :=
  ExtTreeSet.ofList (A.tables.flatMap fun out => out.keys.filterMap id)

/-- Whether no vertex has a silent step. -/
def isEpsilonFree (A : Automaton) : Bool :=
  A.tables.all fun out => !out.contains none

/-- Whether there are no silent steps and every vertex has at most one target on each symbol. -/
def isDeterministic (A : Automaton) : Bool :=
  A.isEpsilonFree && A.tables.all fun out => out.toList.all fun entry => entry.2.size ≤ 1

/-- Whether the automaton is deterministic and every vertex has exactly one target on each
character of `characters`. -/
def isTotalOver (A : Automaton) (characters : Alphabet) : Bool :=
  A.isDeterministic && A.tables.all fun out =>
    characters.toList.all fun c => (out[some c]?.map (·.size)) == some 1

/-- The listed transitions are those that `successors` finds. -/
theorem mem_transitions_iff {A : Automaton} {t : Transition Vertex} :
    t ∈ A.transitions ↔ t.target ∈ A.successors t.source t.symbol := by
  obtain ⟨source, symbol, target⟩ := t
  simp only [transitions, Outgoing.transitions, List.mem_flatMap, List.mem_map, Prod.exists,
    ExtTreeMap.mem_toList_iff_getElem?_eq_some, ExtTreeSet.mem_toList, Transition.mk.injEq,
    successors]
  constructor
  · rintro ⟨q, out, hout, s, targets, htargets, r, hr, rfl, rfl, rfl⟩
    simpa [hout, htargets] using hr
  · intro h
    cases hout : A.outgoing[source]? with
    | none => simp [hout] at h
    | some out =>
      cases htargets : out[symbol]? with
      | none => simp [hout, htargets] at h
      | some targets =>
        simp only [hout, htargets, Option.getD_some] at h
        exact ⟨source, out, hout, symbol, targets, htargets, target, h, rfl, rfl, rfl⟩

end Automaton

end Recognizer
