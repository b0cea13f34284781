import Recognizer.Automaton.Update
import Recognizer.Proofs.Preservation

/-!
# Operations in place are all or nothing

Run in place, an operation takes over the automaton that it would give, or fails and leaves the one
that was there (`Operation.run_execute`). So operations in place end where the operations on values do
(`Operation.run_executeAll`). Operations that check first and then act have nothing to undo. Where
something is taken out before the check, the check fails exactly if nothing was taken out; then a set
without the element, or a table with the entry that it had, has been put back.
-/

namespace Recognizer

open Std

/-! ### Tables -/

section Tables

variable {κ μ : Type} [Ord κ] [TransOrd κ] [LawfulEqOrd κ]
variable {table : ExtTreeMap κ μ} {k : κ} {m m' : μ}

/-- An entry that is there may be put there. -/
theorem insert_eq_self (h : table[k]? = some m) : table.insert k m = table := by
  refine ExtTreeMap.ext_getElem? fun k' => ?_
  rw [ExtTreeMap.getElem?_insert]
  split
  · next heq => rw [← Std.compare_eq_iff_eq.1 heq, h]
  · rfl

/-- What was put in last stays. -/
theorem insert_insert : (table.insert k m).insert k m' = table.insert k m' := by
  refine ExtTreeMap.ext_getElem? fun k' => ?_
  simp only [ExtTreeMap.getElem?_insert]
  split <;> rfl

/-- To amend an entry is to put in what it becomes. -/
theorem amend_eq_insert [DecidableEq κ] [EmptyCollection μ] {f : μ → μ} :
    amend table k f = table.insert k (f (table[k]?.getD ∅)) := by
  refine ExtTreeMap.ext_getElem? fun k' => ?_
  simp only [getElem?_amend, ExtTreeMap.getElem?_insert, Std.compare_eq_iff_eq]

end Tables

/-- A target is taken out of its set, and the entry with it if it was the last. -/
theorem Outgoing.removeTarget_eq {out : Outgoing} {s : Symbol} {targets : VertexSet} {r : Vertex}
    (h : out[s]? = some targets) :
    out.removeTarget s r =
      if (targets.erase r).isEmpty then out.erase s else out.insert s (targets.erase r) := by
  refine ExtTreeMap.ext_getElem? fun s' => ?_
  rw [removeTarget, ExtTreeMap.getElem?_alter, h, Option.getD_some]
  cases hempty : (targets.erase r).isEmpty with
  | true => simp only [hempty, if_true, ExtTreeMap.getElem?_erase]
  | false => simp only [hempty, Bool.false_eq_true, if_false, ExtTreeMap.getElem?_insert]

namespace Automaton

open Update

variable {α : Type} {A B : Automaton} {q : Vertex} {t : Transition Vertex} {offset : Vertex}
variable {characters : Alphabet} {policy : ImportPolicy}

/-! ### Single operations -/

/-- The outcome in place: what is computed is taken over, and a failure changes nothing. -/
def commit (A : Automaton) :
    Except GraphError (α × Automaton) → EStateM.Result GraphError Automaton α
  | .ok (a, B) => .ok a B
  | .error e => .error e A

/-- In place there is success exactly with what is computed. -/
theorem commit_eq_ok_iff {result : Except GraphError (α × Automaton)} {a : α} :
    commit A result = .ok a B ↔ result = .ok (a, B) := by
  cases result <;> simp [commit, Prod.ext_iff]

/-- In place a failure is what is computed, and it leaves the automaton as it was. -/
theorem commit_eq_error_iff {result : Except GraphError (α × Automaton)} {e : GraphError} :
    commit A result = .error e B ↔ result = .error e ∧ B = A := by
  cases result <;> simp [commit, eq_comm]

/-- A computation that is attempted leaves the automaton as it is. -/
@[simp]
theorem run_attempt {x : Except GraphError α} :
    (attempt x).run A = match x with
      | .ok a => .ok a A
      | .error e => .error e A := by
  cases x <;> rfl

/-- Only the transitions of the given vertex are replaced. -/
@[simp]
theorem run_setOutgoing {out : Outgoing} :
    (setOutgoing q out).run A = .ok () { A with outgoing := A.outgoing.insert q out } := rfl

/-- To go on regardless is to keep what was left, whether there was a failure or not. -/
theorem run_regardless {program : Update Unit} :
    program.regardless.run A = match program.run A with
      | .ok _ B => .ok () B
      | .error _ B => .ok () B := rfl

/-- In place the identifier is computed first and then the vertex is added. -/
theorem run_addFreshVertex : Update.addFreshVertex.run A = commit A A.addFreshVertex := by
  simp only [Update.addFreshVertex, EStateM.run_bind, EStateM.run_get, run_attempt,
    Automaton.addFreshVertex]
  cases A.freshIdentifier <;> rfl

/-- In place the vertex is looked up first and then made a finish. -/
theorem run_markFinish : (Update.markFinish q).run A = commit A (A.markFinish q) := by
  simp only [Update.markFinish, EStateM.run_bind, EStateM.run_get, Automaton.markFinish]
  split <;> rfl

/-- Taking out what is not there changes nothing. -/
theorem erase_eq_self {targets : VertexSet} (h : q ∉ targets) : targets.erase q = targets := by
  refine ExtTreeSet.ext_mem fun r => ?_
  rw [ExtTreeSet.mem_erase, ne_eq, Std.compare_eq_iff_eq]
  apply and_iff_right_of_imp
  rintro hr rfl
  exact h hr

/-- In place the vertex is taken out of the finishes first, to no effect if it was none. -/
theorem run_unmarkFinish :
    (Update.unmarkFinish q).run A = commit A ((A.unmarkFinish q).map ((), ·)) := by
  simp only [Update.unmarkFinish, EStateM.run_bind, EStateM.run_get, EStateM.run_set,
    Automaton.unmarkFinish]
  split
  · rfl
  · next hq =>
    have herase : A.finishes.erase q = A.finishes :=
      erase_eq_self fun h => hq (ExtTreeSet.contains_iff_mem.2 h)
    rw [herase]
    rfl

/-- A new entry and a further target make up the transition. -/
theorem insertTransition_eq {out : Outgoing} (h : A.outgoing[t.source]? = some out) :
    A.insertTransition t = { A with
      outgoing := A.outgoing.insert t.source
        (out.insert t.symbol ((out[t.symbol]?.getD ∅).insert t.target)) } := by
  rw [Automaton.insertTransition, amend_eq_insert, h, Option.getD_some, Outgoing.insertTarget,
    amend_eq_insert]

/-- In place a transition is added to the targets of its symbol. -/
theorem run_connect : (Update.connect t).run A = commit A (A.connect t) := by
  simp only [Update.connect, EStateM.run_bind, EStateM.run_get, Automaton.connect]
  cases htarget : A.contains t.target with
  | false => rfl
  | true =>
    cases hout : A.outgoing[t.source]? with
    | none =>
      have hsource : A.contains t.source = false := by
        rw [Bool.eq_false_iff, ne_eq, contains_iff_getElem?_ne_none, hout]
        simp
      rw [hsource]
      rfl
    | some out =>
      have hsource : A.contains t.source = true := by
        rw [contains_iff_getElem?_ne_none, hout]
        simp
      rw [hsource, insertTransition_eq hout, successors, hout]
      rfl

/-- A target is taken out in place, and its symbol with it if it was the last. -/
theorem eraseTransition_eq {out : Outgoing} {targets : VertexSet}
    (hout : A.outgoing[t.source]? = some out) (htargets : out[t.symbol]? = some targets) :
    A.eraseTransition t = { A with
      outgoing := A.outgoing.insert t.source
        (if (targets.erase t.target).isEmpty then out.erase t.symbol
          else out.insert t.symbol (targets.erase t.target)) } := by
  rw [eraseTransition, amend_eq_insert, hout, Option.getD_some, Outgoing.removeTarget_eq htargets]

/-- In place a target that is not there is taken out of the targets to no effect. -/
theorem run_disconnect :
    (Update.disconnect t).run A = commit A ((A.disconnect t).map ((), ·)) := by
  rw [disconnect_eq, successors]
  cases hout : A.outgoing[t.source]? with
  | none => simp [Update.disconnect, hout, commit, Except.map]
  | some out =>
    rw [Option.getD_some]
    cases htargets : out[t.symbol]? with
    | none => simp [Update.disconnect, hout, htargets, commit, Except.map]
    | some targets =>
      simp only [Update.disconnect, EStateM.run_bind, EStateM.run_get, hout, htargets, run_setOutgoing,
        Option.getD_some]
      by_cases htarget : targets.contains t.target = true
      · rw [if_pos htarget, if_pos htarget, eraseTransition_eq hout htargets]
        split
        · simp only [run_setOutgoing, insert_insert]
          rfl
        · rfl
      · have herase : targets.erase t.target = targets :=
          erase_eq_self fun h => htarget (ExtTreeSet.contains_iff_mem.2 h)
        rw [if_neg htarget, if_neg htarget, herase, insert_eq_self htargets, insert_eq_self hout]
        rfl

/-- In place the shift is checked first and then the import takes place. -/
theorem run_importShifted :
    (Update.importShifted B offset).run A = commit A ((A.importShifted B offset).map ((), ·)) := by
  simp only [Update.importShifted, EStateM.run_bind, run_attempt, Automaton.importShifted]
  cases Vertex.shift B.greatestVertex offset <;> rfl

/-- In place the offset is computed first and then the shifted import takes place. -/
theorem run_importUnder :
    (Update.importUnder B policy).run A = commit A (A.importUnder B policy) := by
  simp only [Update.importUnder, EStateM.run_bind, EStateM.run_get, run_attempt,
    Automaton.importUnder]
  cases A.importOffset policy with
  | error e => rfl
  | ok offset =>
    simp only [run_importShifted, bind, Except.bind]
    cases A.importShifted B offset <;> rfl

/-- Transitions that are entered one by one are all entered. -/
theorem run_forM_insertTransition (ts : List (Transition Vertex)) :
    (ts.forM Update.insertTransition).run A = .ok () (ts.foldl Automaton.insertTransition A) := by
  induction ts generalizing A with
  | nil => rfl
  | cons t rest ih => exact ih

/-- In place the missing moves are entered one by one, after the sink, and then its loops. -/
theorem run_totalizeOver :
    (Update.totalizeOver characters).run A = commit A (A.totalizeOver characters) := by
  simp only [Update.totalizeOver, EStateM.run_bind, EStateM.run_get, Automaton.totalizeOver]
  cases A.missingMoves characters with
  | nil => rfl
  | cons move rest =>
    simp only [EStateM.run_bind, run_addFreshVertex]
    cases A.addFreshVertex with
    | error e => rfl
    | ok fresh =>
      simp only [commit, run_forM_insertTransition, ← List.foldl_append]
      rfl

/-- In place the automaton is made total over its own characters. -/
theorem run_totalize : Update.totalize.run A = commit A A.totalize :=
  run_totalizeOver

/-- What a program returns may be forgotten. -/
theorem run_forget {program : Update α} {result : Except GraphError (α × Automaton)}
    (h : program.run A = commit A result) :
    (forget program).run A = commit A ((result.map Prod.snd).map ((), ·)) := by
  rw [forget, EStateM.run_bind, h]
  cases result <;> rfl

end Automaton

namespace Operation

variable {A : Automaton}

/-- In place an operation takes over what it would give, or it fails and changes nothing. -/
theorem run_execute (op : Operation) : op.execute.run A = A.commit ((op.perform A).map ((), ·)) := by
  cases op with
  | insertVertex q => rfl
  | addFreshVertex => exact Automaton.run_forget Automaton.run_addFreshVertex
  | markFinish q => exact Automaton.run_forget Automaton.run_markFinish
  | unmarkFinish q => exact Automaton.run_unmarkFinish
  | connect t => exact Automaton.run_forget Automaton.run_connect
  | disconnect t => exact Automaton.run_disconnect
  | importAlong B f => rfl
  | importShifted B offset => exact Automaton.run_importShifted
  | importUnder B policy => exact Automaton.run_forget Automaton.run_importUnder
  | eliminateEpsilon => rfl
  | totalize => exact Automaton.run_forget Automaton.run_totalize
  | totalizeOver characters => exact Automaton.run_forget Automaton.run_totalizeOver

/-- Whether it fails or not, an operation leaves what the caller is said to have afterwards. -/
theorem run_regardless_execute (op : Operation) :
    op.execute.regardless.run A = .ok () (op.after A) := by
  rw [Automaton.run_regardless, run_execute, after]
  cases op.perform A <;> rfl

/-- Operations in place end where the operations on values end. -/
theorem run_executeAll (operations : List Operation) :
    (executeAll operations).run A = .ok () (operations.foldl after A) := by
  induction operations generalizing A with
  | nil => rfl
  | cons op rest ih =>
    rw [executeAll, List.forM_eq_forM, List.forM_cons, EStateM.run_bind, run_regardless_execute]
    exact ih

end Operation

end Recognizer
