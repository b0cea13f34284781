import Recognizer.Automaton.Transitions

/-!
# Completion

A deterministic automaton is made total over an alphabet by a sink: a fresh vertex that is no
finish, loops on every character, and takes every transition that was missing. If none is missing
the automaton stays as it is and there is no sink.

A character counts as present at a vertex as soon as the vertex has an entry for it.
-/

namespace Recognizer

open Std

namespace Automaton

/-- The vertices and characters of the alphabet without entry, in ascending order. -/
def missingMoves (A : Automaton) (characters : Alphabet) : List (Vertex × Char) :=
  A.outgoing.toList.flatMap fun (q, out) =>
    (characters.toList.filter fun c => !out.contains (some c)).map (q, ·)

/-- Send the missing moves to `sink`, and let `sink` loop on every character. -/
def redirect (A : Automaton) (missing : List (Vertex × Char)) (characters : Alphabet)
    (sink : Vertex) : Automaton :=
  let redirected := missing.map fun (q, c) => ⟨q, some c, sink⟩
  let loops := characters.toList.map fun c => ⟨sink, some c, sink⟩
  (redirected ++ loops).foldl insertTransition A

/-- Make the automaton total over `characters`; the sink is returned if one was needed. -/
def totalizeOver (A : Automaton) (characters : Alphabet) :
    Except GraphError (Option Vertex × Automaton) :=
  match A.missingMoves characters with
  | [] => .ok (none, A)
  | missing => do
    let (sink, extended) ← A.addFreshVertex
    return (some sink, extended.redirect missing characters sink)

/-- Make the automaton total over the characters that it uses. -/
def totalize (A : Automaton) : Except GraphError (Option Vertex × Automaton) :=
  A.totalizeOver A.alphabet

end Automaton

end Recognizer
