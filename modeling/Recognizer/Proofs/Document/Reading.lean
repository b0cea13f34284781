import Recognizer.Automaton.WellFormed
import Recognizer.Proofs.Document.Contents

/-!
# What a numeric document describes

Where names are numerals, the statements of a document become facts about vertices, and reading adds
one fact after the other. A fact adds its vertices and either a finish or a transition, and nothing
else; so the automaton that is read is well-formed, and every view of it is given by membership in
the list of facts. In what order they come, and how often, does not matter.
-/

namespace Recognizer

open Std Text

/-- A statement about vertices. -/
inductive Fact where
  | finish (q : Vertex)
  | transition (t : Transition Vertex)
deriving DecidableEq

/-- The vertices that a fact mentions. -/
def Fact.vertices : Fact → List Vertex
  | finish q => [q]
  | transition t => [t.source, t.target]

/-- The fact that a statement is about the vertices that its names are numerals of. -/
def Statement.resolve? : Statement → Option Fact
  | finish name => (Numeral.read name).map Fact.finish
  | transition t => do
    return .transition ⟨← Numeral.read t.source, t.symbol, ← Numeral.read t.target⟩

/-- The same for a statement on the given line, with a report about the first name that is no
numeral. -/
def Statement.resolve (line : Nat) : Statement → Except TextError Fact
  | finish name => do return .finish (← vertexOfNumeral line name)
  | transition t => do
    let source ← vertexOfNumeral line t.source
    let target ← vertexOfNumeral line t.target
    return .transition ⟨source, t.symbol, target⟩

/-- The start and the facts, if all names are numerals. -/
def Contents.resolve? (contents : Contents) : Option (Vertex × List Fact) := do
  return (← Numeral.read contents.start, ← contents.statements.mapM Statement.resolve?)

namespace Automaton

/-- Add a fact, with the vertices that it mentions. -/
def addFact (A : Automaton) : Fact → Automaton
  | .finish q => (A.insertVertex q).insertFinish q
  | .transition t => ((A.insertVertex t.source).insertVertex t.target).insertTransition t

/-- The automaton that has just what the facts say. -/
def ofFacts (start : Vertex) (facts : List Fact) : Automaton :=
  facts.foldl addFact (singleton start)

variable {A : Automaton} {f : Fact} {facts : List Fact} {start q r : Vertex} {s : Symbol}

/-! ### Reading -/

/-- On any line, the name of a vertex is read as its numeral. -/
theorem toOption_vertexOfNumeral (line : Nat) (name : List Char) :
    (vertexOfNumeral line name).toOption = Numeral.read name := by
  rw [vertexOfNumeral]
  cases Numeral.read name <;> rfl

/-- What a statement resolves to does not depend on the number of its line. -/
theorem toOption_resolve (line : Nat) (statement : Statement) :
    (statement.resolve line).toOption = statement.resolve? := by
  cases statement with
  | finish name =>
    rw [Statement.resolve, toOption_bind, toOption_vertexOfNumeral, Statement.resolve?]
    cases Numeral.read name <;> rfl
  | transition t =>
    rw [Statement.resolve, toOption_bind, toOption_vertexOfNumeral, Statement.resolve?]
    cases Numeral.read t.source with
    | none => rfl
    | some source =>
      rw [Option.bind_some, toOption_bind, toOption_vertexOfNumeral]
      cases Numeral.read t.target <;> rfl

/-- Adding a statement adds the fact that it resolves to. -/
theorem addStatement_eq (line : Nat) (statement : Statement) :
    A.addStatement line statement = (statement.resolve line).map A.addFact := by
  cases statement with
  | finish name =>
    rw [addStatement, Statement.resolve]
    cases vertexOfNumeral line name <;> rfl
  | transition t =>
    rw [addStatement, Statement.resolve]
    cases vertexOfNumeral line t.source with
    | error e => rfl
    | ok source => cases vertexOfNumeral line t.target <;> rfl

/-- A statement is added if it resolves to a fact. -/
theorem toOption_addStatement (line : Nat) (statement : Statement) :
    (A.addStatement line statement).toOption = statement.resolve?.map A.addFact := by
  rw [addStatement_eq, ← toOption_resolve line]
  cases statement.resolve line <;> rfl

/-- An outline describes the facts of its contents. -/
theorem toOption_ofOutline (outline : Outline) :
    (ofOutline outline).toOption =
      outline.contents?.bind fun contents =>
        contents.resolve?.map fun (start, facts) => ofFacts start facts := by
  have hstep (A : Automaton) (entry : Nat × Except TextError Statement) :
      (do A.addStatement entry.1 (← entry.2)).toOption =
        (entry.2.toOption.bind Statement.resolve?).map A.addFact := by
    rw [toOption_bind, Option.map_bind]
    exact congrArg (Option.bind _) (funext fun _ => toOption_addStatement _ _)
  rw [ofOutline, toOption_bind, toOption_vertexOfNumeral]
  simp only [toOption_foldlM hstep, mapM_bind]
  rw [Outline.contents?, ← Outline.statements?]
  cases Outline.statements? outline.body with
  | none => cases Numeral.read outline.start <;> rfl
  | some statements =>
    rw [Option.map_some, Option.bind_some, Option.bind_some, Contents.resolve?]
    cases Numeral.read outline.start with
    | none => rfl
    | some start => cases statements.mapM Statement.resolve? <;> rfl

/-- A document is read to the automaton of the facts of its contents. -/
theorem toOption_read (text : String) :
    (read text).toOption =
      (Contents.ofLines? (lines text.toList)).bind fun contents =>
        contents.resolve?.map fun (start, facts) => ofFacts start facts := by
  rw [read, toOption_bind, ← Outline.contents?_ofText, Option.bind_assoc]
  exact congrArg (Option.bind _) (funext toOption_ofOutline)

/-! ### The automaton of a list of facts -/

/-- Further facts leave the start as it is. -/
theorem start_foldl_addFact : (facts.foldl addFact A).start = A.start := by
  induction facts generalizing A with
  | nil => rfl
  | cons f rest ih =>
    rw [List.foldl_cons, ih]
    cases f <;> rfl

/-- Further facts make what they mention vertices, and nothing else. -/
theorem contains_foldl_addFact :
    (facts.foldl addFact A).contains q = true ↔
      A.contains q = true ∨ ∃ f ∈ facts, q ∈ f.vertices := by
  induction facts generalizing A with
  | nil => simp
  | cons f rest ih =>
    have hadd : (A.addFact f).contains q = true ↔ A.contains q = true ∨ q ∈ f.vertices := by
      cases f with
      | finish p => simp [addFact, Fact.vertices, or_comm]
      | transition t =>
        simp only [addFact, contains_insertTransition, contains_insertVertex, Fact.vertices,
          List.mem_cons, List.not_mem_nil, or_false]
        grind
    rw [List.foldl_cons, ih, hadd, or_assoc]
    simp only [List.mem_cons, exists_eq_or_imp]

/-- Further facts make finishes of the finishes among them, and of nothing else. -/
theorem isFinish_foldl_addFact :
    (facts.foldl addFact A).isFinish q = true ↔ A.isFinish q = true ∨ .finish q ∈ facts := by
  induction facts generalizing A with
  | nil => simp
  | cons f rest ih =>
    have hadd : (A.addFact f).isFinish q = true ↔ A.isFinish q = true ∨ .finish q = f := by
      cases f with
      | finish p => simp [addFact, or_comm]
      | transition t => simp [addFact]
    rw [List.foldl_cons, ih, hadd, List.mem_cons, or_assoc]

/-- Further facts add the transitions among them, and no others. -/
theorem mem_successors_foldl_addFact :
    r ∈ (facts.foldl addFact A).successors q s ↔
      r ∈ A.successors q s ∨ .transition ⟨q, s, r⟩ ∈ facts := by
  induction facts generalizing A with
  | nil => simp
  | cons f rest ih =>
    have hadd : r ∈ (A.addFact f).successors q s ↔
        r ∈ A.successors q s ∨ .transition ⟨q, s, r⟩ = f := by
      cases f with
      | finish p => simp [addFact]
      | transition t => simp [addFact, or_comm, eq_comm]
    rw [List.foldl_cons, ih, hadd, List.mem_cons, or_assoc]

/-- A fact keeps automata well-formed. -/
theorem WellFormed.addFact (hA : A.WellFormed) (f : Fact) : (A.addFact f).WellFormed := by
  cases f with
  | finish q => exact (hA.insertVertex q).insertFinish (contains_insertVertex.2 (Or.inl rfl))
  | transition t =>
    apply WellFormed.insertTransition ((hA.insertVertex t.source).insertVertex t.target)
    · simp
    · simp

/-- Further facts preserve well-formedness. -/
theorem WellFormed.foldl_addFact (hA : A.WellFormed) (facts : List Fact) :
    (facts.foldl Automaton.addFact A).WellFormed := by
  induction facts generalizing A with
  | nil => exact hA
  | cons f rest ih => exact ih (hA.addFact f)

/-- The automaton of facts is well-formed. -/
theorem wellFormed_ofFacts : (ofFacts start facts).WellFormed :=
  (WellFormed.singleton start).foldl_addFact facts

/-- The start of the automaton of facts is the given one. -/
@[simp]
theorem start_ofFacts : (ofFacts start facts).start = start :=
  start_foldl_addFact

/-- The vertices of the automaton of facts are the start and what the facts mention. -/
@[simp]
theorem contains_ofFacts :
    (ofFacts start facts).contains q = true ↔ q = start ∨ ∃ f ∈ facts, q ∈ f.vertices := by
  rw [ofFacts, contains_foldl_addFact, contains_singleton]

/-- The finishes of the automaton of facts are those among the facts. -/
@[simp]
theorem isFinish_ofFacts : (ofFacts start facts).isFinish q = true ↔ .finish q ∈ facts := by
  rw [ofFacts, isFinish_foldl_addFact, isFinish_singleton]
  simp

/-- The successors in the automaton of facts are the targets of the transitions among the facts. -/
@[simp]
theorem mem_successors_ofFacts :
    r ∈ (ofFacts start facts).successors q s ↔ .transition ⟨q, s, r⟩ ∈ facts := by
  rw [ofFacts, mem_successors_foldl_addFact]
  simp

/-- The transitions of the automaton of facts are those among the facts. -/
theorem mem_transitions_ofFacts {t : Transition Vertex} :
    t ∈ (ofFacts start facts).transitions ↔ .transition t ∈ facts := by
  rw [mem_transitions_iff, mem_successors_ofFacts]

/-- Facts may come in any order, and more than once. -/
theorem ofFacts_congr {more : List Fact} (h : ∀ f, f ∈ facts ↔ f ∈ more) :
    ofFacts start facts = ofFacts start more := by
  refine wellFormed_ofFacts.ext wellFormed_ofFacts ?_ (fun q => ?_) (fun q => ?_) fun q s => ?_
  · rw [start_ofFacts, start_ofFacts]
  · rw [Bool.eq_iff_iff, contains_ofFacts, contains_ofFacts]
    simp only [h]
  · rw [Bool.eq_iff_iff, isFinish_ofFacts, isFinish_ofFacts, h]
  · refine ExtTreeSet.ext_mem fun r => ?_
    rw [mem_successors_ofFacts, mem_successors_ofFacts, h]

/-! ### What is read -/

/-- What is read states the facts that the statements of the document resolve to. -/
theorem exists_contents_of_read {text : String} (h : read text = .ok A) :
    ∃ contents start facts, Contents.ofLines? (lines text.toList) = some contents ∧
      contents.statements.mapM Statement.resolve? = some facts ∧ ofFacts start facts = A := by
  have hread := toOption_read text
  rw [h] at hread
  obtain ⟨contents, hcontents, hfacts⟩ := Option.bind_eq_some_iff.1 hread.symm
  obtain ⟨⟨start, facts⟩, hresolve, hA⟩ := Option.map_eq_some_iff.1 hfacts
  rw [Contents.resolve?] at hresolve
  simp only [bind, Option.bind_eq_some_iff, pure, Option.some.injEq, Prod.mk.injEq] at hresolve
  obtain ⟨_, _, _, hfacts, _, rfl⟩ := hresolve
  exact ⟨contents, start, _, hcontents, hfacts, hA⟩

/-- What is read is well-formed. -/
theorem wellFormed_of_read {text : String} (h : read text = .ok A) : A.WellFormed := by
  obtain ⟨_, _, _, _, _, rfl⟩ := exists_contents_of_read h
  exact wellFormed_ofFacts

end Automaton

end Recognizer
