import Recognizer.Automaton.Operation

/-!
# Operations in place

The same operations as programs that change an automaton step by step, each with its steps in the
order in which they are taken. A failure leaves the automaton as the steps before it have made it.
So it is no matter of course here that a failed operation changes nothing: a finish is taken out
before it is known to have been one, and likewise a target.
-/

namespace Recognizer

open Std

namespace Automaton

/-- Whether `q` is no finish but reaches one by silent steps. -/
def becomesFinish (A : Automaton) (q : Vertex) : Bool :=
  !A.isFinish q && (A.closure q).toList.any A.isFinish

/-- A program that changes an automaton. -/
abbrev Update (α : Type) := EStateM GraphError Automaton α

namespace Update

/-- Go on with the result of a computation, or fail as it does. -/
def attempt {α : Type} : Except GraphError α → Update α
  | .ok a => return a
  | .error e => throw e

/-- Run a program for what it does, not for what it returns. -/
def forget {α : Type} (program : Update α) : Update Unit := do
  let _ ← program
  return ()

/-- Run a program and go on, whether it fails or not. -/
def regardless (program : Update Unit) : Update Unit := fun A =>
  match program.run A with
  | .ok _ B => .ok () B
  | .error _ B => .ok () B

/-- Replace the transitions that leave `q`. -/
def setOutgoing (q : Vertex) (out : Outgoing) : Update Unit :=
  modify fun A => { A with outgoing := A.outgoing.insert q out }

/-- Enter a transition without checking that its ends are vertices. -/
def insertTransition (t : Transition Vertex) : Update Unit :=
  modify (·.insertTransition t)

/-- Add a vertex greater than all others. -/
def addFreshVertex : Update Vertex := do
  let q ← attempt (← get).freshIdentifier
  modify (·.insertVertex q)
  return q

/-- Make the vertex `q` a finish. -/
def markFinish (q : Vertex) : Update Bool := do
  let A ← get
  if A.contains q then
    set (A.insertFinish q)
    return !A.isFinish q
  else throw (.unknownVertex q)

/-- Take `q` out of the finishes, and fail if it was none. -/
def unmarkFinish (q : Vertex) : Update Unit := do
  let A ← get
  set { A with finishes := A.finishes.erase q }
  if A.isFinish q then return () else throw (.notFinish q)

/-- Add a transition, first to the targets of its symbol, with a new entry if there is none. -/
def connect (t : Transition Vertex) : Update Bool := do
  let A ← get
  if !A.contains t.target then throw (.unknownVertex t.target)
  else match A.outgoing[t.source]? with
    | none => throw (.unknownVertex t.source)
    | some out => do
      let targets := out[t.symbol]?.getD ∅
      setOutgoing t.source (out.insert t.symbol (targets.insert t.target))
      return !targets.contains t.target

/-- Take the target out of the targets of the symbol, fail if it was none of them, and drop the
symbol if it was the last. -/
def disconnect (t : Transition Vertex) : Update Unit := do
  match (← get).outgoing[t.source]? with
  | none => throw (.unknownTransition t)
  | some out =>
    match out[t.symbol]? with
    | none => throw (.unknownTransition t)
    | some targets => do
      let rest := targets.erase t.target
      setOutgoing t.source (out.insert t.symbol rest)
      if targets.contains t.target then
        if rest.isEmpty then setOutgoing t.source (out.erase t.symbol) else return ()
      else throw (.unknownTransition t)

/-- Import an automaton with every vertex shifted, once the greatest is known to fit. -/
def importShifted (B : Automaton) (offset : Vertex) : Update Unit := do
  let _ ← attempt (Vertex.shift B.greatestVertex offset)
  modify (·.importAlong B (· + offset))

/-- Import an automaton under the given policy. -/
def importUnder (B : Automaton) (policy : ImportPolicy) : Update Vertex := do
  let offset ← attempt ((← get).importOffset policy)
  importShifted B offset
  return offset

/-- Add a sink, then the missing moves one by one, then the loops. -/
def totalizeOver (characters : Alphabet) : Update (Option Vertex) := do
  match (← get).missingMoves characters with
  | [] => return none
  | missing => do
    let sink ← addFreshVertex
    (missing.map fun (q, c) => ⟨q, some c, sink⟩).forM insertTransition
    (characters.toList.map fun c => ⟨sink, some c, sink⟩).forM insertTransition
    return some sink

/-- Make the automaton total over the characters that it uses. -/
def totalize : Update (Option Vertex) := do
  totalizeOver (← get).alphabet

/-- What elimination has noted at the vertices visited so far. -/
structure Harvest where
  finishes : List Vertex := []
  transitions : List (Transition Vertex) := []

/-- Visit a vertex, and note from the automaton as it then is whether the vertex becomes a finish and
what it takes over. -/
def gather (harvest : Harvest) (q : Vertex) : Update Harvest := do
  let A ← get
  return {
    finishes := if A.becomesFinish q then harvest.finishes ++ [q] else harvest.finishes
    transitions := harvest.transitions ++ A.inheritedTransitions q }

/-- Replace every silent step by what it leads to, where the vertices are visited in the given order:
first all are visited, then the finishes and the transitions are added, and last the silent steps are
dropped. -/
def eliminateEpsilonAlong (order : List Vertex) : Update Unit := do
  let harvest ← order.foldlM gather {}
  modify fun A => { A with finishes := A.finishes.insertMany harvest.finishes }
  harvest.transitions.forM insertTransition
  modify (·.eraseEpsilon)

end Update

end Automaton

namespace Operation

open Automaton

/-- The operation in place. -/
def execute : Operation → Update Unit
  | insertVertex q => modify (·.insertVertex q)
  | addFreshVertex => Update.forget Update.addFreshVertex
  | markFinish q => Update.forget (Update.markFinish q)
  | unmarkFinish q => Update.unmarkFinish q
  | connect t => Update.forget (Update.connect t)
  | disconnect t => Update.disconnect t
  | importAlong B f => modify (·.importAlong B f)
  | importShifted B offset => Update.importShifted B offset
  | importUnder B policy => Update.forget (Update.importUnder B policy)
  | eliminateEpsilon => modify (·.eliminateEpsilon)
  | totalize => Update.forget Update.totalize
  | totalizeOver characters => Update.forget (Update.totalizeOver characters)

/-- One operation after the other in place, whether they fail or not. -/
def executeAll (operations : List Operation) : Update Unit :=
  operations.forM fun op => op.execute.regardless

end Operation

end Recognizer
