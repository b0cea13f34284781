import Recognizer.Proofs.Totality

/-!
# What operations need and what they do

Each operation fails under one condition on the automaton and its arguments, and when it succeeds it
adds and takes away just what it is for: vertices, finishes and transitions. Both are read off a table
with one line for each operation (`Operation.IsRefused`, `Operation.change`). Imports differ only in
where they move vertices. A shift moves them as numbers, so that nothing wraps around.

Main statement: run in place on a well-formed automaton, an operation that fails has changed nothing.
It fails exactly if it is refused, and otherwise its change takes place
(`Operation.run_execute_outcome`).
-/

namespace Recognizer

open Std

/-- What is added to an automaton and what is taken away; nothing, unless it is said. -/
structure Change where
  addsVertex : Vertex → Prop := fun _ => False
  addsFinish : Vertex → Prop := fun _ => False
  dropsFinish : Vertex → Prop := fun _ => False
  addsTransition : Transition Vertex → Prop := fun _ => False
  dropsTransition : Transition Vertex → Prop := fun _ => False

namespace Change

/-- The change takes place from `A` to `B`. -/
structure Yields (change : Change) (A B : Automaton) : Prop where
  start_eq : B.start = A.start
  contains_iff : ∀ q, B.contains q = true ↔ A.contains q = true ∨ change.addsVertex q
  isFinish_iff : ∀ q, B.isFinish q = true ↔
    A.isFinish q = true ∧ ¬change.dropsFinish q ∨ change.addsFinish q
  mem_transitions_iff : ∀ t, t ∈ B.transitions ↔
    t ∈ A.transitions ∧ ¬change.dropsTransition t ∨ change.addsTransition t

/-- An automaton is added, with its vertices moved. -/
def ofImport (B : Automaton) (moves : Vertex → Vertex → Prop) : Change where
  addsVertex q := ∃ p, B.contains p = true ∧ moves p q
  addsFinish q := ∃ p, B.isFinish p = true ∧ moves p q
  addsTransition t :=
    ∃ p m, ⟨p, t.symbol, m⟩ ∈ B.transitions ∧ moves p t.source ∧ moves m t.target

end Change

namespace Automaton

/-- Some vertex has no transition on some of the characters. -/
def Lacks (A : Automaton) (characters : Alphabet) : Prop :=
  ∃ q, A.contains q = true ∧ ∃ c ∈ characters, ∀ r, r ∉ A.successors q (some c)

/-- The vertex has the number after that of the greatest vertex. -/
def IsNext (A : Automaton) (q : Vertex) : Prop :=
  q.toNat = A.greatestVertex.toNat + 1

/-- The number by which an import under the policy moves vertices. -/
def shiftUnder (A : Automaton) : ImportPolicy → Nat
  | .disjoint => A.greatestVertex.toNat + 1
  | .shared => 0

/-- If anything is lacking, a vertex is added where all that was lacking leads, and which loops. -/
def completing (A : Automaton) (characters : Alphabet) : Change where
  addsVertex q := A.Lacks characters ∧ A.IsNext q
  addsTransition t := A.Lacks characters ∧ A.IsNext t.target ∧ ∃ c ∈ characters, t.symbol = some c ∧
    (A.IsNext t.source ∨ A.contains t.source = true ∧ ∀ r, r ∉ A.successors t.source (some c))

/-- What vertices reach by silent steps becomes theirs, and silent steps go. -/
def eliminating (A : Automaton) : Change where
  addsFinish q := ∃ r, A.SilentlyReaches q r ∧ A.isFinish r = true
  addsTransition t := ∃ m c, A.SilentlyReaches t.source m ∧ t.symbol = some c ∧
    t.target ∈ A.successors m (some c)
  dropsTransition t := t.symbol = none

end Automaton

namespace Operation

/-- When the operation fails. -/
def IsRefused (A : Automaton) : Operation → Prop
  | addFreshVertex => A.greatestVertex = 4294967295
  | markFinish q => A.contains q = false
  | unmarkFinish q => A.isFinish q = false
  | connect t => A.contains t.source = false ∨ A.contains t.target = false
  | disconnect t => t ∉ A.transitions
  | importShifted B offset => UInt32.size ≤ B.greatestVertex.toNat + offset.toNat
  | importUnder B .disjoint => UInt32.size ≤ A.greatestVertex.toNat + 1 ∨
      UInt32.size ≤ A.greatestVertex.toNat + 1 + B.greatestVertex.toNat
  | importUnder _ .shared => False
  | totalize => A.Lacks A.alphabet ∧ A.greatestVertex = 4294967295
  | totalizeOver characters => A.Lacks characters ∧ A.greatestVertex = 4294967295
  | insertVertex _ | importAlong _ _ | eliminateEpsilon => False

/-- What the operation does if it does not fail. -/
def change (A : Automaton) : Operation → Change
  | insertVertex q => { addsVertex := (· = q) }
  | addFreshVertex => { addsVertex := A.IsNext }
  | markFinish q => { addsFinish := (· = q) }
  | unmarkFinish q => { dropsFinish := (· = q) }
  | connect t => { addsTransition := (· = t) }
  | disconnect t => { dropsTransition := (· = t) }
  | importAlong B f => .ofImport B fun p q => f p = q
  | importShifted B offset => .ofImport B fun p q => q.toNat = p.toNat + offset.toNat
  | importUnder B policy => .ofImport B fun p q => q.toNat = p.toNat + A.shiftUnder policy
  | eliminateEpsilon => A.eliminating
  | totalize => A.completing A.alphabet
  | totalizeOver characters => A.completing characters

end Operation

/-- A result is a failure if there is a reason to refuse, and else an automaton after the change. -/
def Change.Settles (change : Change) (A : Automaton) (refused : Prop) :
    Except GraphError Automaton → Prop
  | .ok B => ¬refused ∧ change.Yields A B
  | .error _ => refused

namespace Automaton

variable {A B C : Automaton} {change : Change} {q r : Vertex} {t : Transition Vertex}
variable {characters : Alphabet}

/-- The transitions may be given by the successors. -/
theorem yields_of_successors (hstart : C.start = A.start)
    (hcontains : ∀ q, C.contains q = true ↔ A.contains q = true ∨ change.addsVertex q)
    (hfinish : ∀ q, C.isFinish q = true ↔
      A.isFinish q = true ∧ ¬change.dropsFinish q ∨ change.addsFinish q)
    (hsuccessors : ∀ q s r, r ∈ C.successors q s ↔
      r ∈ A.successors q s ∧ ¬change.dropsTransition ⟨q, s, r⟩ ∨ change.addsTransition ⟨q, s, r⟩) :
    change.Yields A C where
  start_eq := hstart
  contains_iff := hcontains
  isFinish_iff := hfinish
  mem_transitions_iff t := by
    rw [mem_transitions_iff, mem_transitions_iff]
    exact hsuccessors t.source t.symbol t.target

/-! ### Vertices and finishes -/

/-- If there is a next vertex, it is one after the greatest. -/
theorem isNext_iff (hfits : A.greatestVertex.toNat + 1 < UInt32.size) :
    A.IsNext q ↔ q = A.greatestVertex + 1 := by
  rw [IsNext, ← UInt32.toNat_inj, Vertex.toNat_add hfits]
  rfl

/-- The insertion of a vertex always succeeds, and adds the vertex. -/
theorem settles_insertVertex :
    Change.Settles { addsVertex := (· = q) } A False (.ok (A.insertVertex q)) := by
  refine ⟨id, yields_of_successors rfl (fun r => ?_) (fun r => ?_) fun p s r => ?_⟩
  · simp [or_comm]
  · simp
  · simp

/-- A fresh vertex is added unless the greatest one is the last there is. -/
theorem settles_addFreshVertex :
    Change.Settles { addsVertex := A.IsNext } A (A.greatestVertex = 4294967295)
      (A.addFreshVertex.map Prod.snd) := by
  rw [addFreshVertex_eq]
  split
  · next hfits =>
    refine ⟨add_one_lt_size_iff.1 hfits,
      yields_of_successors rfl (fun r => ?_) (fun r => ?_) fun p s r => ?_⟩
    · simp [isNext_iff hfits, or_comm]
    · simp
    · simp
  · next hfits =>
    rw [add_one_lt_size_iff, ne_eq, Decidable.not_not] at hfits
    exact hfits

/-- A finish is marked unless it is no vertex. -/
theorem settles_markFinish :
    Change.Settles { addsFinish := (· = q) } A (A.contains q = false)
      ((A.markFinish q).map Prod.snd) := by
  rw [markFinish]
  split
  · next hq =>
    refine ⟨by simp [hq], yields_of_successors rfl (fun r => ?_) (fun r => ?_) fun p s r => ?_⟩
    · simp
    · simp [or_comm]
    · simp
  · next hq => exact Bool.eq_false_iff.2 hq

/-- A finish is unmarked unless it is none. -/
theorem settles_unmarkFinish :
    Change.Settles { dropsFinish := (· = q) } A (A.isFinish q = false) (A.unmarkFinish q) := by
  rw [unmarkFinish]
  split
  · next hq =>
    refine ⟨by simp [hq], yields_of_successors rfl (fun r => ?_) (fun r => ?_) fun p s r => ?_⟩
    · simp [contains]
    · simp [isFinish, and_comm, eq_comm (a := r)]
    · simp [successors]
  · next hq => exact Bool.eq_false_iff.2 hq

/-! ### Single transitions -/

/-- A transition is added unless one of its ends is no vertex. -/
theorem settles_connect :
    Change.Settles { addsTransition := (· = t) } A
      (A.contains t.source = false ∨ A.contains t.target = false)
      ((A.connect t).map Prod.snd) := by
  rw [connect]
  cases htarget : A.contains t.target with
  | false => exact Or.inr rfl
  | true =>
    cases hsource : A.contains t.source with
    | false => exact Or.inl rfl
    | true =>
      refine ⟨by simp, yields_of_successors rfl (fun r => ?_) (fun r => ?_) fun p s r => ?_⟩
      · rw [contains_insertTransition, or_iff_right_of_imp fun h => h ▸ hsource]
        simp
      · simp
      · simp [or_comm, eq_comm (a := t)]

/-- A transition is removed unless there is none. -/
theorem settles_disconnect :
    Change.Settles { dropsTransition := (· = t) } A (t ∉ A.transitions) (A.disconnect t) := by
  rw [disconnect_eq, mem_transitions_iff, ← ExtTreeSet.contains_iff_mem]
  split
  · next ht =>
    have hsource := contains_of_mem_successors (ExtTreeSet.contains_iff_mem.1 ht)
    refine ⟨not_not_intro ht, yields_of_successors rfl (fun r => ?_) (fun r => ?_) fun p s r => ?_⟩
    · rw [contains_eraseTransition, or_iff_right_of_imp fun h => h ▸ hsource]
      simp
    · simp
    · simp [eq_comm (a := t)]
  · next ht => exact ht

/-! ### Imports -/

/-- An import has its effect if its map moves the imported vertices as it should. -/
theorem yields_importAlong (hB : B.WellFormed) {f : Vertex → Vertex} {moves : Vertex → Vertex → Prop}
    (hmoves : ∀ p q, B.contains p = true → (f p = q ↔ moves p q)) :
    (Change.ofImport B moves).Yields A (A.importAlong B f) := by
  refine yields_of_successors start_importAlong (fun q => ?_) (fun q => ?_) fun q s r => ?_
  · rw [contains_importAlong]
    apply or_congr_right
    exact exists_congr fun p => and_congr_right fun hp => hmoves p q hp
  · rw [isFinish_importAlong, Change.ofImport, not_false_eq_true, and_true]
    apply or_congr_right
    exact exists_congr fun p => and_congr_right fun hp => hmoves p q (hB.contains_finish p hp)
  · rw [mem_successors_importAlong, Change.ofImport, not_false_eq_true, and_true]
    apply or_congr_right
    refine exists_congr fun p => exists_congr fun m => ?_
    rw [mem_transitions_iff]
    refine and_congr_right fun hm => ?_
    rw [hmoves p q (contains_of_mem_successors hm), hmoves m r (hB.contains_target p s m hm)]

/-- A shift that fits moves vertices as numbers. -/
theorem add_eq_iff {offset : Vertex} (hfits : B.greatestVertex.toNat + offset.toNat < UInt32.size)
    (hq : B.contains q = true) : q + offset = r ↔ r.toNat = q.toNat + offset.toNat := by
  rw [← UInt32.toNat_inj, toNat_add_of_contains hfits hq, eq_comm]

/-- A copy with shifted vertices is added unless the greatest would overflow. -/
theorem settles_importShifted (hB : B.WellFormed) (offset : Vertex) :
    (Change.ofImport B fun p q => q.toNat = p.toNat + offset.toNat).Settles A
      (UInt32.size ≤ B.greatestVertex.toNat + offset.toNat) (A.importShifted B offset) := by
  rw [importShifted_eq]
  split
  · next hfits =>
    exact ⟨Nat.not_le_of_lt hfits, yields_importAlong hB fun p q hp => add_eq_iff hfits hp⟩
  · next hfits => exact Nat.not_lt.1 hfits

/-- What a policy imports is added unless the shift it chooses is refused. -/
theorem settles_importUnder (hB : B.WellFormed) (policy : ImportPolicy) :
    ((Operation.importUnder B policy).change A).Settles A ((Operation.importUnder B policy).IsRefused A)
      ((A.importUnder B policy).map Prod.snd) := by
  cases policy with
  | shared =>
    have hfits : B.greatestVertex.toNat + (0 : Vertex).toNat < UInt32.size :=
      B.greatestVertex.toNat_lt_size
    rw [importUnder_shared_eq]
    exact ⟨id, yields_importAlong hB fun p q hp => add_eq_iff hfits hp⟩
  | disjoint =>
    rw [importUnder_disjoint_eq, Operation.IsRefused, Nat.add_comm (A.greatestVertex.toNat + 1)]
    split
    · next hreceiver =>
      have hone : (A.greatestVertex + 1).toNat = A.greatestVertex.toNat + 1 := Vertex.toNat_add hreceiver
      split
      · next himported =>
        refine ⟨not_or_intro (Nat.not_le_of_lt hreceiver) (Nat.not_le_of_lt himported),
          yields_importAlong hB fun p q hp => ?_⟩
        rw [add_eq_iff (by rwa [hone]) hp, hone]
        rfl
      · next himported => exact Or.inr (Nat.not_lt.1 himported)
    · next hreceiver => exact Or.inl (Nat.not_lt.1 hreceiver)

/-! ### Elimination and completion -/

/-- Elimination always succeeds, and does what it is to do. -/
theorem settles_eliminateEpsilon : A.eliminating.Settles A False (.ok A.eliminateEpsilon) := by
  refine ⟨id, yields_of_successors start_eliminateEpsilon (fun q => ?_) (fun q => ?_)
    fun q s r => ?_⟩
  · simp [eliminating]
  · have hkept : A.isFinish q = true → ∃ r, A.SilentlyReaches q r ∧ A.isFinish r = true :=
      fun hq => ⟨q, .refl, hq⟩
    rw [isFinish_eliminateEpsilon, ← or_iff_right_of_imp hkept]
    simp [eliminating]
  · cases s with
    | none => simp [eliminating, not_mem_successors_eliminateEpsilon]
    | some c =>
      have hkept : r ∈ A.successors q (some c) →
          ∃ m, A.SilentlyReaches q m ∧ r ∈ A.successors m (some c) := fun hr => ⟨q, .refl, hr⟩
      rw [mem_successors_eliminateEpsilon, ← or_iff_right_of_imp hkept]
      simp [eliminating]

/-- An automaton that lacks a transition misses a move. -/
theorem WellFormed.lacks_iff (hA : A.WellFormed) :
    A.Lacks characters ↔ A.missingMoves characters ≠ [] := by
  rw [ne_eq, List.eq_nil_iff_forall_not_mem, Classical.not_forall]
  simp only [Lacks, Prod.exists, mem_missingMoves, Bool.eq_false_iff, ne_eq, hA.hasEntry_iff,
    not_exists, Classical.not_not, exists_and_left]

/-- With a sink nothing is lacking. -/
theorem yields_withSink (hA : A.WellFormed) (hfits : A.greatestVertex.toNat + 1 < UInt32.size)
    (hlacks : A.Lacks characters) :
    (A.completing characters).Yields A (A.withSink characters) := by
  refine yields_of_successors start_withSink (fun q => ?_) (fun q => ?_) fun q s r => ?_
  · rw [contains_withSink, or_comm]
    simp [completing, isNext_iff hfits, hlacks]
  · simp [completing]
  · rw [mem_successors_withSink]
    simp only [completing, isNext_iff hfits, hlacks, true_and, not_false_eq_true, and_true,
      Bool.eq_false_iff, ne_eq, hA.hasEntry_iff, not_exists]

/-- Where nothing is lacking, completion changes nothing. -/
theorem yields_self (hlacks : ¬A.Lacks characters) : (A.completing characters).Yields A A where
  start_eq := rfl
  contains_iff q := by simp [completing, hlacks]
  isFinish_iff q := by simp [completing]
  mem_transitions_iff t := by simp [completing, hlacks]

/-- What is lacking is completed unless there is no next vertex for the sink. -/
theorem settles_totalizeOver (hA : A.WellFormed) (characters : Alphabet) :
    (A.completing characters).Settles A (A.Lacks characters ∧ A.greatestVertex = 4294967295)
      ((A.totalizeOver characters).map Prod.snd) := by
  rw [totalizeOver_eq]
  split
  · next hnil =>
    have hlacks : ¬A.Lacks characters := fun h => hA.lacks_iff.1 h hnil
    exact ⟨fun h => hlacks h.1, yields_self hlacks⟩
  · next hmissing =>
    have hlacks := hA.lacks_iff.2 hmissing
    split
    · next hfits =>
      exact ⟨fun h => add_one_lt_size_iff.1 hfits h.2, yields_withSink hA hfits hlacks⟩
    · next hfits =>
      rw [add_one_lt_size_iff, ne_eq, Decidable.not_not] at hfits
      exact ⟨hlacks, hfits⟩

end Automaton

namespace Operation

open Automaton

/-- Every operation settles on a well-formed automaton and with well-formed arguments. -/
theorem settles_perform {A : Automaton} (hA : A.WellFormed) (op : Operation)
    (himported : ∀ B ∈ op.imported?, B.WellFormed) :
    (op.change A).Settles A (op.IsRefused A) (op.perform A) := by
  cases op with
  | insertVertex q => exact settles_insertVertex
  | addFreshVertex => exact settles_addFreshVertex
  | markFinish q => exact settles_markFinish
  | unmarkFinish q => exact settles_unmarkFinish
  | connect t => exact settles_connect
  | disconnect t => exact settles_disconnect
  | importAlong B f => exact ⟨id, yields_importAlong (himported B rfl) fun _ _ _ => Iff.rfl⟩
  | importShifted B offset => exact settles_importShifted (himported B rfl) offset
  | importUnder B policy => exact settles_importUnder (himported B rfl) policy
  | eliminateEpsilon => exact settles_eliminateEpsilon
  | totalize => exact settles_totalizeOver hA A.alphabet
  | totalizeOver characters => exact settles_totalizeOver hA characters

/-- Run in place on a well-formed automaton, with well-formed arguments, an operation that fails has
changed nothing. It fails exactly if it is refused, and otherwise its change takes place. -/
theorem run_execute_outcome (op : Operation) (A : Automaton) (hA : A.WellFormed)
    (himported : ∀ B ∈ op.imported?, B.WellFormed) :
    (∀ e B, op.execute.run A = .error e B → B = A) ∧
      ((∃ e B, op.execute.run A = .error e B) ↔ op.IsRefused A) ∧
      ∀ B, op.execute.run A = .ok () B → (op.change A).Yields A B := by
  have hsettles := settles_perform hA op himported
  rw [run_execute]
  cases hperform : op.perform A with
  | error e =>
    rw [hperform] at hsettles
    refine ⟨?_, ⟨fun _ => hsettles, fun _ => ⟨e, A, rfl⟩⟩, ?_⟩
    · intro _ _ h
      cases h
      rfl
    · intro _ h
      cases h
  | ok B =>
    rw [hperform] at hsettles
    refine ⟨?_, ⟨?_, fun h => absurd h hsettles.1⟩, ?_⟩
    · intro _ _ h
      cases h
    · intro h
      obtain ⟨_, _, h⟩ := h
      cases h
    · intro _ h
      cases h
      exact hsettles.2

/-- The lonely step stays as it is when its character is to be taken from a loop that it does not
have, and it may be imported into itself. -/
theorem run_execute_outcome_lonelyStep :
    lonelyStep.WellFormed ∧
      (∃ e, (disconnect ⟨0, some 'a', 0⟩).execute.run lonelyStep = .error e lonelyStep) ∧
      ∃ B, (importUnder lonelyStep .disjoint).execute.run lonelyStep = .ok () B ∧
        ((importUnder lonelyStep .disjoint).change lonelyStep).Yields lonelyStep B := by
  have hloop : (disconnect ⟨0, some 'a', 0⟩).IsRefused lonelyStep := by
    rw [IsRefused, mem_transitions_iff]
    decide +kernel
  have hgreatest : lonelyStep.greatestVertex = 1 :=
    greatestVertex_eq (by decide +kernel) (by decide +kernel)
  have himport : ¬(importUnder lonelyStep .disjoint).IsRefused lonelyStep := by
    rw [IsRefused, hgreatest]
    decide
  obtain ⟨hunchanged, hfails, -⟩ := run_execute_outcome (disconnect ⟨0, some 'a', 0⟩) lonelyStep
    wellFormed_lonelyStep (by simp [imported?])
  obtain ⟨-, hfails', hyields⟩ := run_execute_outcome (importUnder lonelyStep .disjoint) lonelyStep
    wellFormed_lonelyStep (by simp [imported?, wellFormed_lonelyStep])
  refine ⟨wellFormed_lonelyStep, ?_, ?_⟩
  · obtain ⟨e, B, hrun⟩ := hfails.2 hloop
    exact ⟨e, hunchanged e B hrun ▸ hrun⟩
  · cases hrun : (importUnder lonelyStep .disjoint).execute.run lonelyStep with
    | error e B => exact absurd (hfails'.1 ⟨e, B, hrun⟩) himport
    | ok _ B => exact ⟨B, rfl, hyields B hrun⟩

end Operation

end Recognizer
