import Recognizer.Failure

/-!
# Finite automata

An automaton has one start vertex, a set of finishes, and a table that gives each vertex its
outgoing transitions by symbol. One structure serves nondeterministic automata, with or without
silent transitions, and deterministic ones. Every vertex is a key of the table, also when nothing
leaves it, so the keys in ascending order are the vertices.

Tables and sets are extensional, hence two automata are equal exactly when they have the same
start, finishes and tables. An operation that can fail checks its arguments first and then returns
the changed automaton, so that a failure leaves nothing half done.
-/

namespace Recognizer

open Std

/-- Change the entry of a table at `k`, starting from the empty value where there is none. -/
def amend {κ μ : Type} [Ord κ] [TransOrd κ] [EmptyCollection μ] (table : ExtTreeMap κ μ) (k : κ)
    (f : μ → μ) : ExtTreeMap κ μ :=
  table.alter k fun entry => some (f (entry.getD ∅))

/-- After `amend`, the entry at `k` is the changed one and all others are as before. -/
theorem getElem?_amend {κ μ : Type} [Ord κ] [TransOrd κ] [LawfulEqOrd κ] [DecidableEq κ]
    [EmptyCollection μ] (table : ExtTreeMap κ μ) (k k' : κ) (f : μ → μ) :
    (amend table k f)[k']? = if k = k' then some (f (table[k]?.getD ∅)) else table[k']? := by
  simp [amend, ExtTreeMap.getElem?_alter]

section FoldAmend

variable {κ μ ε : Type} [Ord κ] [TransOrd κ] [LawfulEqOrd κ] [DecidableEq κ] [EmptyCollection μ]
variable (table : ExtTreeMap κ μ) (entries : List ε) (key : ε → κ) (change : ε → μ → μ)

/-- What each change can only add to an entry, a list of changes adds if one of them does. -/
theorem getD_foldl_amend {P : μ → Prop} {R : ε → Prop} (k : κ)
    (hchange : ∀ e m, P (change e m) ↔ P m ∨ R e) :
    P ((entries.foldl (fun table e => amend table (key e) (change e)) table)[k]?.getD ∅) ↔
      P (table[k]?.getD ∅) ∨ ∃ e ∈ entries, key e = k ∧ R e := by
  induction entries generalizing table with
  | nil => simp
  | cons e rest ih =>
    rw [List.foldl_cons, ih, getElem?_amend]
    by_cases hk : key e = k
    · simp [hk, hchange, or_assoc]
    · simp [hk]

/-- The keys after a list of changes are the old ones and those that were changed. -/
theorem mem_foldl_amend (k : κ) :
    k ∈ entries.foldl (fun table e => amend table (key e) (change e)) table ↔
      k ∈ table ∨ ∃ e ∈ entries, key e = k := by
  induction entries generalizing table with
  | nil => simp
  | cons e rest ih =>
    rw [List.foldl_cons, ih, ← ExtTreeMap.isSome_getElem?_iff_mem, getElem?_amend]
    by_cases hk : key e = k
    · simp [hk]
    · simp [hk]

end FoldAmend

/-- The identifier `q + offset`, provided that it is one. -/
def Vertex.shift (q offset : Vertex) : Except GraphError Vertex :=
  if q.toNat + offset.toNat < UInt32.size then .ok (q + offset)
  else .error (.identifierOverflow q offset)

/-- A finite set of vertices. -/
abbrev VertexSet := ExtTreeSet Vertex

/-- A finite set of characters. -/
abbrev Alphabet := ExtTreeSet Char

/-- The transitions that leave one vertex: for each symbol, the set of their targets. -/
abbrev Outgoing := ExtTreeMap Symbol VertexSet

/-- Add `target` to the targets on `symbol`. -/
def Outgoing.insertTarget (out : Outgoing) (symbol : Symbol) (target : Vertex) : Outgoing :=
  amend out symbol (·.insert target)

/-- Take `target` out of the targets on `symbol`; a symbol left without target disappears. -/
def Outgoing.removeTarget (out : Outgoing) (symbol : Symbol) (target : Vertex) : Outgoing :=
  out.alter symbol fun targets =>
    let rest := (targets.getD ∅).erase target
    if rest.isEmpty then none else some rest

/-- A finite automaton with a single start vertex. -/
structure Automaton where
  start : Vertex
  finishes : VertexSet
  outgoing : ExtTreeMap Vertex Outgoing
deriving DecidableEq

namespace Automaton

/-- The automaton with one vertex, its start. -/
def singleton (start : Vertex) : Automaton :=
  { start, finishes := ∅, outgoing := amend ∅ start id }

/-- The vertices, ascending. -/
def vertices (A : Automaton) : List Vertex :=
  A.outgoing.keys

/-- The number of vertices. -/
def size (A : Automaton) : Nat :=
  A.outgoing.size

/-- Whether `q` is a vertex. -/
def contains (A : Automaton) (q : Vertex) : Bool :=
  A.outgoing.contains q

/-- The greatest vertex; the start stands in when there is no vertex at all. -/
def greatestVertex (A : Automaton) : Vertex :=
  A.outgoing.maxKey?.getD A.start

/-- Add the vertex `q`; nothing changes if it is present. -/
def insertVertex (A : Automaton) (q : Vertex) : Automaton :=
  { A with outgoing := amend A.outgoing q id }

/-- The identifier after the greatest vertex. -/
def freshIdentifier (A : Automaton) : Except GraphError Vertex :=
  Vertex.shift A.greatestVertex 1

/-- Add a vertex greater than all others, and return it. -/
def addFreshVertex (A : Automaton) : Except GraphError (Vertex × Automaton) := do
  let q ← A.freshIdentifier
  return (q, A.insertVertex q)

/-- Whether `q` is a finish. -/
def isFinish (A : Automaton) (q : Vertex) : Bool :=
  A.finishes.contains q

/-- Make `q` a finish without checking that it is a vertex. -/
def insertFinish (A : Automaton) (q : Vertex) : Automaton :=
  { A with finishes := A.finishes.insert q }

/-- Make the vertex `q` a finish, and tell whether it was not one before. -/
def markFinish (A : Automaton) (q : Vertex) : Except GraphError (Bool × Automaton) :=
  if A.contains q then .ok (!A.isFinish q, A.insertFinish q)
  else .error (.unknownVertex q)

/-- Make `q` an ordinary vertex again. -/
def unmarkFinish (A : Automaton) (q : Vertex) : Except GraphError Automaton :=
  if A.isFinish q then .ok { A with finishes := A.finishes.erase q }
  else .error (.notFinish q)

/-- The only finish. -/
def uniqueFinish (A : Automaton) : Except GraphError Vertex :=
  match A.finishes.toList with
  | [q] => .ok q
  | several => .error (.notUniqueFinish several.length)

/-- The transitions that leave `q`. -/
def outgoingOf (A : Automaton) (q : Vertex) : Except GraphError Outgoing :=
  match A.outgoing[q]? with
  | some out => .ok out
  | none => .error (.unknownVertex q)

/-- The targets of the transitions from `q` on `symbol`; none if `q` is not a vertex. -/
def successors (A : Automaton) (q : Vertex) (symbol : Symbol) : VertexSet :=
  (A.outgoing[q]?.getD ∅)[symbol]?.getD ∅

/-- Enter a transition without checking that its ends are vertices; the source becomes one. -/
def insertTransition (A : Automaton) (t : Transition Vertex) : Automaton :=
  { A with
    outgoing := amend A.outgoing t.source (Outgoing.insertTarget · t.symbol t.target) }

/-- Add a transition between two vertices, and tell whether it was not present before. -/
def connect (A : Automaton) (t : Transition Vertex) :
    Except GraphError (Bool × Automaton) :=
  if !A.contains t.target then .error (.unknownVertex t.target)
  else if !A.contains t.source then .error (.unknownVertex t.source)
  else .ok (!(A.successors t.source t.symbol).contains t.target, A.insertTransition t)

/-- Remove a transition of the automaton. -/
def disconnect (A : Automaton) (t : Transition Vertex) : Except GraphError Automaton :=
  if (A.successors t.source t.symbol).contains t.target then
    .ok { A with
      outgoing := amend A.outgoing t.source (Outgoing.removeTarget · t.symbol t.target) }
  else .error (.unknownTransition t)

end Automaton

end Recognizer
