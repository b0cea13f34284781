import Recognizer.Automaton.Operation
import Recognizer.NamedAutomaton.Basic

/-!
# Operations on named automata as data

The operations that give names to vertices, as values. They add vertices together with labels; an
operation on the automaton behind the names may add vertices without label (`Edit`).
-/

namespace Recognizer

namespace NamedAutomaton

/-- An operation that names vertices, with its arguments. -/
inductive Growth where
  | vertex (label : String)
  | unionByName (M : NamedAutomaton)

namespace Growth

/-- The named automaton that the caller has afterwards. -/
def after (L : NamedAutomaton) : Growth → NamedAutomaton
  | vertex label => (L.vertex label).2
  | unionByName M => L.unionByName M

/-- The named automaton that is imported, if any. -/
def imported? : Growth → Option NamedAutomaton
  | vertex _ => none
  | unionByName M => some M

end Growth

/-- An operation that names vertices, or one that takes no notice of names. -/
inductive Edit where
  | grow (growth : Growth)
  | operate (op : Operation)

namespace Edit

/-- The named automaton that the caller has afterwards. -/
def after (L : NamedAutomaton) : Edit → NamedAutomaton
  | grow growth => growth.after L
  | operate op => { L with automaton := op.after L.automaton }

/-- The automaton that is imported, if any. -/
def imported? : Edit → Option Automaton
  | grow growth => growth.imported?.map automaton
  | operate op => op.imported?

end Edit

end NamedAutomaton

end Recognizer
