import Recognizer.Proofs.Document.Rules

/-!
# Documents line by line

The reader takes the sections of a document apart before it looks at the lines. Here it is brought
into a form that goes through the lines one by one and keeps track of the part: what it does with a
line depends on nothing but the line, its number and its part (`read_eq`).
-/

namespace Recognizer

open Text Document

namespace Document

open Outline

/-- The vertex that stands alone on a line. -/
def vertexOnLine (line : NumberedLine) : Except TextError Vertex := do
  vertexOfNumeral line.1 (← onlyField line)

/-- The fact that an entry of an outline states. -/
def factOfEntry (entry : Nat × Except TextError Statement) : Except TextError Fact := do
  (← entry.2).resolve entry.1

/-- The fact that a line of the given part states, if any. -/
def readLine : Part → NumberedLine → Except TextError (Option Fact)
  | .start, line => do
    let _ ← vertexOnLine line
    return none
  | .separator, line => if line.2.isEmpty then .ok none else .error (.notEmpty line.1)
  | .finishes, line =>
    if line.2.isEmpty then .ok none else (factOfEntry (line.1, readFinish line)).map some
  | .transitions, line =>
    if isBlank line.2 then .ok none else (factOfEntry (line.1, readTransition line)).map some

/-- The facts that the lines state, where the first has the given part and number. -/
def readLines : Part → Nat → List (List Char) → Except TextError (List Fact)
  | _, _, [] => .ok []
  | part, number, line :: rest => do
    let fact ← readLine part (number, line)
    let facts ← readLines (part.next line) (number + 1) rest
    return fact.toList ++ facts

/-- The lines with their numbers, where the first has the given one. -/
def numberedFrom (number : Nat) (text : List (List Char)) : List NumberedLine :=
  (text.zipIdx number).map Prod.swap

/-- The first line has the given number, and the others have the next ones. -/
theorem numberedFrom_cons {number : Nat} {line : List Char} {rest : List (List Char)} :
    numberedFrom number (line :: rest) = (number, line) :: numberedFrom (number + 1) rest := by
  rw [numberedFrom, List.zipIdx_cons]
  rfl

/-- Lines are numbered from one on. -/
theorem numberedLines_eq {text : List Char} : numberedLines text = numberedFrom 1 (lines text) := by
  rw [numberedFrom, List.zipIdx_succ, List.map_map]
  rfl

end Document

namespace Automaton

open Outline

variable {A : Automaton} {part : Part} {number : Nat} {line : List Char} {text : List (List Char)}

/-- Add what an entry of an outline states. -/
def addEntry (A : Automaton) (entry : Nat × Except TextError Statement) :
    Except TextError Automaton := do
  A.addStatement entry.1 (← entry.2)

/-- Add what the lines state, where the first has the given part and number. -/
def addLines (A : Automaton) (part : Part) (number : Nat) (text : List (List Char)) :
    Except TextError Automaton :=
  (readLines part number text).map fun facts => facts.foldl addFact A

/-- An entry adds the fact that it stands for, or fails as it does. -/
theorem addEntry_eq (entry : Nat × Except TextError Statement) :
    A.addEntry entry = (factOfEntry entry).map A.addFact := by
  rw [addEntry, factOfEntry]
  cases entry.2 with
  | error e => rfl
  | ok statement => exact addStatement_eq entry.1 statement

/-- Lines are judged one after the other, each in its part. -/
theorem addLines_cons {rest : List (List Char)} :
    A.addLines part number (line :: rest) = (do
      let fact ← readLine part (number, line)
      addLines (fact.toList.foldl addFact A) (part.next line) (number + 1) rest) := by
  rw [addLines, readLines]
  cases readLine part (number, line) with
  | error e => rfl
  | ok fact =>
    simp only [bind, Except.bind, addLines]
    cases readLines (part.next line) (number + 1) rest with
    | error e => rfl
    | ok facts => simp [Except.map, pure, Except.pure]

/-- The lines of transitions are read one by one. -/
theorem foldlM_transitions :
    (((numberedFrom number text).filter fun line => !isBlank line.2).map
        fun line => (line.1, readTransition line)).foldlM addEntry A =
      A.addLines .transitions number text := by
  induction text generalizing number A with
  | nil => rfl
  | cons line rest ih =>
    rw [numberedFrom_cons, addLines_cons, readLine]
    by_cases hblank : isBlank line = true
    · rw [List.filter_cons_of_neg (by simp [hblank]), ih, if_pos hblank]
      rfl
    · rw [List.filter_cons_of_pos (by simp [hblank]), List.map_cons, List.foldlM_cons, addEntry_eq,
        if_neg hblank]
      cases factOfEntry (number, readTransition (number, line)) with
      | error e => rfl
      | ok fact => exact ih

/-- The lines after the separator are read one by one. -/
theorem foldlM_finishes :
    ((finishLines (numberedFrom number text)).map (fun line => (line.1, readFinish line)) ++
        (transitionLines (numberedFrom number text)).map
          fun line => (line.1, readTransition line)).foldlM addEntry A =
      A.addLines .finishes number text := by
  induction text generalizing number A with
  | nil => rfl
  | cons line rest ih =>
    rw [numberedFrom_cons, addLines_cons, readLine]
    cases line with
    | nil => exact foldlM_transitions
    | cons c more =>
      rw [if_neg (by simp)]
      have hfinish : finishLines ((number, c :: more) :: numberedFrom (number + 1) rest) =
          (number, c :: more) :: finishLines (numberedFrom (number + 1) rest) := rfl
      have htransition : transitionLines ((number, c :: more) :: numberedFrom (number + 1) rest) =
          transitionLines (numberedFrom (number + 1) rest) := rfl
      rw [hfinish, htransition, List.map_cons, List.cons_append, List.foldlM_cons, addEntry_eq]
      cases factOfEntry (number, readFinish (number, c :: more)) with
      | error e => rfl
      | ok fact => exact ih

/-- The lines after the start are read one by one. -/
theorem foldlM_readBody :
    (readBody (numberedFrom number text)).foldlM addEntry A = A.addLines .separator number text := by
  cases text with
  | nil => rfl
  | cons separator rest =>
    rw [numberedFrom_cons, addLines_cons, readLine, readBody]
    cases separator with
    | nil => exact foldlM_finishes
    | cons c more => rfl

/-- A document is read line by line. -/
theorem read_eq (text : String) :
    read text = match lines text.toList with
      | [] => .error .noStart
      | first :: rest =>
        if isBlank first then .error .noStart
        else (do addLines (singleton (← vertexOnLine (1, first))) .separator 2 rest) := by
  rw [read, Outline.ofText, numberedLines_eq]
  cases lines text.toList with
  | nil => rfl
  | cons first rest =>
    rw [numberedFrom_cons]
    dsimp only
    split
    · rfl
    · rw [vertexOnLine]
      cases onlyField (1, first) with
      | error e => rfl
      | ok name =>
        simp only [bind, Except.bind, pure, Except.pure, ofOutline]
        cases vertexOfNumeral 1 name with
        | error e => rfl
        | ok start => exact foldlM_readBody

end Automaton

end Recognizer
