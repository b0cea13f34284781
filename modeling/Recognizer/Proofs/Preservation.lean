import Recognizer.Automaton.Operation
import Recognizer.Expression.Construction
import Recognizer.Proofs.Completion
import Recognizer.Proofs.Elimination

/-!
# What keeps automata well-formed

Every operation that changes an automaton keeps it well-formed (`Operation.wellFormed_after`), and
so do the combinations that expressions are built from. An operation that can fail is described by
what it ensures of its result, and such descriptions follow the steps of a computation
(`Ensures.bind`).

The only operation that takes something out of the table is the removal of a transition. It drops a
symbol together with its last target, so it undoes the insertion of a new transition
(`disconnect_of_connect`).
-/

namespace Recognizer

open Std

section Ensures

variable {ε α β : Type} {x : Except ε α} {P : α → Prop} {Q : β → Prop}

/-- If the computation succeeds, its result has the property. -/
def Ensures (x : Except ε α) (P : α → Prop) : Prop :=
  ∀ a, x = .ok a → P a

/-- A success ensures what holds of its result. -/
theorem Ensures.ok {a : α} (h : P a) : Ensures (.ok a : Except ε α) P := by
  intro b hb
  cases hb
  exact h

/-- What succeeds gives what it gives. -/
theorem Ensures.self : Ensures x fun a => x = .ok a :=
  fun _ ha => ha

/-- A failure ensures anything. -/
theorem Ensures.error {e : ε} : Ensures (.error e : Except ε α) P := by
  intro b hb
  cases hb

/-- What is ensured by the first step is at hand in the second. -/
theorem Ensures.bind {f : α → Except ε β} (hx : Ensures x P) (hf : ∀ a, P a → Ensures (f a) Q) :
    Ensures (x >>= f) Q := by
  cases x with
  | error e => exact Ensures.error
  | ok a => exact hf a (hx a rfl)

/-- Nothing need be known about the first step. -/
theorem Ensures.bind_of_forall {f : α → Except ε β} (hf : ∀ a, Ensures (f a) Q) :
    Ensures (x >>= f) Q :=
  Ensures.bind (P := fun _ => True) (fun _ _ => trivial) fun a _ => hf a

/-- A mapped result ensures what the map of the result does. -/
theorem Ensures.map {f : α → β} (hx : Ensures x fun a => Q (f a)) : Ensures (x.map f) Q := by
  cases x with
  | error e => exact Ensures.error
  | ok a => exact Ensures.ok (hx a rfl)

end Ensures

/-! ### Taking a transition out -/

/-- Removal takes one target from one symbol. -/
theorem Outgoing.mem_getD_removeTarget {out : Outgoing} {symbol s : Symbol} {target r : Vertex} :
    r ∈ (out.removeTarget symbol target)[s]?.getD ∅ ↔
      r ∈ out[s]?.getD ∅ ∧ ¬(symbol = s ∧ target = r) := by
  rw [removeTarget, ExtTreeMap.getElem?_alter]
  by_cases hs : symbol = s
  · subst hs
    have herase : r ∈ (out[symbol]?.getD ∅).erase target ↔
        r ∈ out[symbol]?.getD ∅ ∧ ¬target = r := by
      rw [ExtTreeSet.mem_erase, ne_eq, Std.compare_eq_iff_eq, and_comm]
    cases hempty : ((out[symbol]?.getD ∅).erase target).isEmpty with
    | true =>
      rw [ExtTreeSet.isEmpty_iff] at hempty
      simpa [hempty] using herase
    | false => simpa [hempty] using herase
  · simp [hs]

/-- A symbol keeps its entry unless it loses its last target. -/
theorem Outgoing.mem_removeTarget {out : Outgoing} {symbol s : Symbol} {target : Vertex} :
    s ∈ out.removeTarget symbol target ↔
      if symbol = s then ∃ r ∈ out[s]?.getD ∅, target ≠ r else s ∈ out := by
  rw [← ExtTreeMap.isSome_getElem?_iff_mem, removeTarget, ExtTreeMap.getElem?_alter]
  by_cases hs : symbol = s
  · subst hs
    have hrest : ((out[symbol]?.getD ∅).erase target).isEmpty = false ↔
        ∃ r ∈ out[symbol]?.getD ∅, target ≠ r := by
      rw [Bool.eq_false_iff, ne_eq, ExtTreeSet.isEmpty_iff, ExtTreeSet.eq_empty_iff_forall_not_mem]
      simp [ExtTreeSet.mem_erase, and_comm]
    rw [if_pos rfl, if_pos ReflCmp.compare_self, ← hrest]
    generalize (out[symbol]?.getD ∅).erase target = rest
    dsimp only
    split
    · next hempty => simpa using hempty
    · next hne => simpa using hne
  · simp [hs]

namespace Automaton

variable {A B : Automaton} {q r : Vertex} {s : Symbol} {t : Transition Vertex}

/-- Take a transition out of the table. -/
def eraseTransition (A : Automaton) (t : Transition Vertex) : Automaton :=
  { A with outgoing := amend A.outgoing t.source (Outgoing.removeTarget · t.symbol t.target) }

/-- A transition is removed by erasing it if it is there. -/
theorem disconnect_eq :
    A.disconnect t =
      if (A.successors t.source t.symbol).contains t.target then .ok (A.eraseTransition t)
      else .error (.unknownTransition t) := rfl

/-- To erase a transition leaves the start as it is. -/
@[simp]
theorem start_eraseTransition : (A.eraseTransition t).start = A.start := rfl

/-- To erase a transition leaves the finishes as they are. -/
@[simp]
theorem isFinish_eraseTransition : (A.eraseTransition t).isFinish r = A.isFinish r := rfl

/-- The source of an erased transition is a vertex afterwards. -/
@[simp]
theorem contains_eraseTransition :
    (A.eraseTransition t).contains r = true ↔ r = t.source ∨ A.contains r = true := by
  simp only [contains_iff_getElem?_ne_none, eraseTransition, getElem?_amend]
  split <;> simp_all [eq_comm]

/-- Just the erased transition goes. -/
@[simp]
theorem mem_successors_eraseTransition :
    r ∈ (A.eraseTransition t).successors q s ↔ r ∈ A.successors q s ∧ t ≠ ⟨q, s, r⟩ := by
  obtain ⟨source, symbol, target⟩ := t
  simp only [successors, eraseTransition, getElem?_amend, ne_eq, Transition.mk.injEq]
  by_cases hq : source = q
  · simp [hq, Outgoing.mem_getD_removeTarget]
  · simp [hq]

/-- An entry goes if the erased transition was the last in it. -/
theorem hasEntry_eraseTransition :
    (A.eraseTransition t).hasEntry q s = true ↔
      if t.source = q ∧ t.symbol = s then ∃ r ∈ A.successors q s, t.target ≠ r
      else A.hasEntry q s = true := by
  simp only [hasEntry, ExtTreeMap.contains_iff_mem, eraseTransition, getElem?_amend, successors]
  by_cases hq : t.source = q
  · simp [hq, Outgoing.mem_removeTarget]
  · simp [hq]

/-- A transition may be taken out. -/
theorem WellFormed.eraseTransition (hA : A.WellFormed) (hsource : A.contains t.source = true) :
    (A.eraseTransition t).WellFormed := by
  apply of_hasEntry
  · simp [hA.contains_start]
  · intro q hq
    exact contains_eraseTransition.2 (Or.inr (hA.contains_finish q hq))
  · intro q s r hr
    rw [mem_successors_eraseTransition] at hr
    exact contains_eraseTransition.2 (Or.inr (hA.contains_target q s r hr.1))
  · intro q s hentry
    rw [hasEntry_eraseTransition] at hentry
    split at hentry
    · next hqs =>
      obtain ⟨r, hr, hne⟩ := hentry
      refine ⟨r, mem_successors_eraseTransition.2 ⟨hr, ?_⟩⟩
      rintro rfl
      exact hne rfl
    · next hqs =>
      obtain ⟨r, hr⟩ := hA.hasEntry_iff.1 hentry
      refine ⟨r, mem_successors_eraseTransition.2 ⟨hr, ?_⟩⟩
      rintro rfl
      exact hqs ⟨rfl, rfl⟩

/-- Taking out what was just put in changes nothing, if it was not there before. -/
theorem WellFormed.eraseTransition_insertTransition (hA : A.WellFormed)
    (hsource : A.contains t.source = true) (htarget : A.contains t.target = true)
    (hnew : t.target ∉ A.successors t.source t.symbol) :
    (A.insertTransition t).eraseTransition t = A := by
  have hB := hA.insertTransition hsource htarget
  have hsource' : (A.insertTransition t).contains t.source = true := by simp
  refine (hB.eraseTransition hsource').ext hA rfl (fun q => ?_) (fun _ => rfl) fun q s => ?_
  · rw [Bool.eq_iff_iff, contains_eraseTransition, contains_insertTransition, or_self_left]
    exact or_iff_right_of_imp fun hq => hq ▸ hsource
  · refine ExtTreeSet.ext_mem fun r => ?_
    rw [mem_successors_eraseTransition, mem_successors_insertTransition]
    constructor
    · intro h
      exact h.1.resolve_left h.2
    · intro hr
      refine ⟨Or.inr hr, ?_⟩
      rintro rfl
      exact hnew hr

/-! ### The checked operations -/

/-- A transition is added if both its ends are vertices. -/
theorem connect_eq_ok_iff {isNew : Bool} :
    A.connect t = .ok (isNew, B) ↔
      A.contains t.source = true ∧ A.contains t.target = true ∧
        isNew = !(A.successors t.source t.symbol).contains t.target ∧ B = A.insertTransition t := by
  rw [connect]
  cases A.contains t.target with
  | false => simp
  | true =>
    cases A.contains t.source with
    | false => simp
    | true => simp [eq_comm]

/-- Removing a transition that was just added gives back the automaton as it was. -/
theorem WellFormed.disconnect_of_connect (hA : A.WellFormed) (h : A.connect t = .ok (true, B)) :
    B.disconnect t = .ok A := by
  obtain ⟨hsource, htarget, hnew, rfl⟩ := connect_eq_ok_iff.1 h
  have hmem : t.target ∈ (A.insertTransition t).successors t.source t.symbol := by simp
  have hfresh : t.target ∉ A.successors t.source t.symbol := by
    intro hold
    rw [ExtTreeSet.contains_iff_mem.2 hold] at hnew
    cases hnew
  rw [disconnect_eq, if_pos (ExtTreeSet.contains_iff_mem.2 hmem),
    hA.eraseTransition_insertTransition hsource htarget hfresh]

namespace WellFormed

/-- A fresh vertex preserves well-formedness. -/
theorem addFreshVertex (hA : A.WellFormed) :
    Ensures A.addFreshVertex fun result => result.2.WellFormed :=
  Ensures.bind_of_forall fun q => Ensures.ok (hA.insertVertex q)

/-- A marked finish preserves well-formedness. -/
theorem markFinish (hA : A.WellFormed) (q : Vertex) :
    Ensures (A.markFinish q) fun result => result.2.WellFormed := by
  rw [Automaton.markFinish]
  split
  · next hq => exact Ensures.ok (hA.insertFinish hq)
  · exact Ensures.error

/-- A finish may become an ordinary vertex. -/
theorem unmarkFinish (hA : A.WellFormed) (q : Vertex) :
    Ensures (A.unmarkFinish q) WellFormed := by
  rw [Automaton.unmarkFinish]
  split
  · refine Ensures.ok ⟨hA.contains_start, fun r hr => ?_, hA.contains_target, hA.ne_empty⟩
    have hmem : r ∈ A.finishes.erase q := ExtTreeSet.contains_iff_mem.1 hr
    exact hA.contains_finish r (ExtTreeSet.contains_iff_mem.2 (ExtTreeSet.mem_of_mem_erase hmem))
  · exact Ensures.error

/-- A further transition preserves well-formedness. -/
theorem connect (hA : A.WellFormed) (t : Transition Vertex) :
    Ensures (A.connect t) fun result => result.2.WellFormed := by
  intro result h
  obtain ⟨hsource, htarget, _, hB⟩ := connect_eq_ok_iff.1 h
  rw [hB]
  exact hA.insertTransition hsource htarget

/-- A removed transition preserves well-formedness. -/
theorem disconnect (hA : A.WellFormed) (t : Transition Vertex) :
    Ensures (A.disconnect t) WellFormed := by
  rw [disconnect_eq]
  split
  · next ht =>
    exact Ensures.ok (hA.eraseTransition (contains_of_mem_successors (ExtTreeSet.contains_iff_mem.1 ht)))
  · exact Ensures.error

/-- A copy with shifted vertices preserves well-formedness. -/
theorem importShifted (hA : A.WellFormed) (hB : B.WellFormed) (offset : Vertex) :
    Ensures (A.importShifted B offset) WellFormed :=
  Ensures.bind_of_forall fun _ => Ensures.ok (hA.importAlong hB _)

/-- An import under any policy preserves well-formedness. -/
theorem importUnder (hA : A.WellFormed) (hB : B.WellFormed) (policy : ImportPolicy) :
    Ensures (A.importUnder B policy) fun result => result.2.WellFormed :=
  Ensures.bind_of_forall fun offset =>
    (hA.importShifted hB offset).bind fun _ hC => Ensures.ok hC

/-- Completion preserves well-formedness. -/
theorem totalizeOver (hA : A.WellFormed) (characters : Alphabet) :
    Ensures (A.totalizeOver characters) fun result => result.2.WellFormed := by
  rw [totalizeOver_eq]
  split
  · exact Ensures.ok hA
  · split
    · exact Ensures.ok (hA.withSink characters)
    · exact Ensures.error

/-! ### The combinations -/

/-- A silent connection preserves well-formedness. -/
theorem connectSilently (hA : A.WellFormed) (q r : Vertex) :
    Ensures (A.connectSilently q r) WellFormed :=
  (hA.connect _).bind fun _ hB => Ensures.ok hB

/-- The automaton of two ends is well-formed. -/
theorem twoEnds : Ensures twoEnds fun result => result.2.WellFormed :=
  (singleton 0).addFreshVertex.bind fun result hA =>
    (hA.markFinish result.1).bind fun _ hB => Ensures.ok hB

/-- The automaton of a symbol is well-formed. -/
theorem ofSymbol (s : Symbol) : Ensures (ofSymbol s) WellFormed :=
  twoEnds.bind fun _ hA => (hA.connect _).bind fun _ hB => Ensures.ok hB

/-- One automaton followed by another is well-formed if both are. -/
theorem followedBy (hA : A.WellFormed) (hB : B.WellFormed) :
    Ensures (A.followedBy B) WellFormed :=
  Ensures.bind_of_forall fun finish =>
    (hA.importUnder hB .disjoint).bind fun _ hjoined =>
      (hjoined.unmarkFinish finish).bind fun _ hopened =>
        Ensures.bind_of_forall fun entry => hopened.connectSilently finish entry

/-- A further branch preserves well-formedness. -/
theorem addBranch (hA : A.WellFormed) (hB : B.WellFormed) (exit : Vertex) :
    Ensures (A.addBranch B exit) WellFormed :=
  Ensures.bind_of_forall fun _ =>
    (hA.importUnder hB .disjoint).bind fun _ hjoined =>
      Ensures.bind_of_forall fun entry =>
        (hjoined.connectSilently A.start entry).bind fun _ hentered =>
          Ensures.bind_of_forall fun last =>
            (hentered.unmarkFinish last).bind fun _ hopened => hopened.connectSilently last exit

end WellFormed

end Automaton

/-- Every construction that succeeds gives a well-formed automaton. -/
theorem Expression.wellFormed_toAutomaton (e : Expression) :
    Ensures e.toAutomaton Automaton.WellFormed := by
  induction e with
  | atom s => exact Automaton.WellFormed.ofSymbol s
  | seq l r ihl ihr => exact ihl.bind fun _ hA => ihr.bind fun _ hB => hA.followedBy hB
  | alt l r ihl ihr =>
    exact Automaton.WellFormed.twoEnds.bind fun _ hends =>
      ihl.bind fun _ hA => (hends.addBranch hA _).bind fun _ hfirst =>
        ihr.bind fun _ hB => hfirst.addBranch hB _
  | star e ih =>
    exact ((Automaton.WellFormed.singleton 0).markFinish 0).bind fun _ hends =>
      ih.bind fun _ hA => hends.addBranch hA _

/-- Every operation keeps automata well-formed, whether it succeeds or fails. -/
theorem Operation.wellFormed_after {A : Automaton} (hA : A.WellFormed) (op : Operation)
    (himported : ∀ B ∈ op.imported?, B.WellFormed) : (op.after A).WellFormed := by
  have hperform : Ensures (op.perform A) Automaton.WellFormed := by
    cases op with
    | insertVertex q => exact Ensures.ok (hA.insertVertex q)
    | addFreshVertex => exact hA.addFreshVertex.map
    | markFinish q => exact (hA.markFinish q).map
    | unmarkFinish q => exact hA.unmarkFinish q
    | connect t => exact (hA.connect t).map
    | disconnect t => exact hA.disconnect t
    | importAlong B f => exact Ensures.ok (hA.importAlong (himported B rfl) f)
    | importShifted B offset => exact hA.importShifted (himported B rfl) offset
    | importUnder B policy => exact (hA.importUnder (himported B rfl) policy).map
    | eliminateEpsilon => exact Ensures.ok hA.eliminateEpsilon
    | totalize => exact (hA.totalizeOver A.alphabet).map
    | totalizeOver characters => exact (hA.totalizeOver characters).map
  rw [after]
  split
  · next B hB => exact hperform B hB
  · exact hA

end Recognizer
