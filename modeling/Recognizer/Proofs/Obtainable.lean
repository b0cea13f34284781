import Recognizer.Proofs.Atomicity
import Recognizer.Proofs.Document.Labels
import Recognizer.Proofs.Stages

/-!
# The automata that can be obtained

An automaton is obtained from a document, from an expression or from one vertex, by operations that are
run in place, may fail, and may import other automata so obtained. The list of operations is the public
one: an automaton whose table is given as it is need not be obtainable.

Main statement: obtainable automata are well-formed, so they are equal if nothing can be seen that
tells them apart, and a new transition that is removed again leaves no trace
(`Obtainable.wellFormed_ext`). Any operations in place leave another one. The subset construction is
included as long as identifiers last for its subsets.
-/

namespace Recognizer

namespace Automaton

/-- The automata that come about by the public operations. What an operation leaves counts whether it
fails or not. -/
inductive Obtainable : Automaton → Prop where
  | singleton (start : Vertex) : Obtainable (singleton start)
  | read {text : String} {A : Automaton} (h : read text = .ok A) : Obtainable A
  | readLabelled {text : String} {L : NamedAutomaton} (h : NamedAutomaton.read text = .ok L) :
      Obtainable L.automaton
  | construct {e : Expression} {A : Automaton} (h : e.toAutomaton = .ok A) : Obtainable A
  | compile {C : Compiler} {e : Expression} {compilation : Compilation} {A : Automaton}
      (h : C.run e = .ok compilation)
      (hfew : compilation.determinized.subsets.length < UInt32.size)
      (hA : A ∈ compilation.stages) : Obtainable A
  | determinize {A : Automaton} (hA : Obtainable A)
      (hfew : A.determinize.subsets.length < UInt32.size) : Obtainable A.determinize.automaton
  | operate {A B : Automaton} (hA : Obtainable A) (op : Operation)
      (himported : ∀ C ∈ op.imported?, Obtainable C)
      (hrun : op.execute.regardless.run A = .ok () B) : Obtainable B

variable {A B : Automaton}

/-- What the caller has after an operation is obtained. -/
theorem Obtainable.after (hA : A.Obtainable) (op : Operation)
    (himported : ∀ C ∈ op.imported?, C.Obtainable) : (op.after A).Obtainable :=
  hA.operate op himported op.run_regardless_execute

/-- Whatever operations follow one another, with or without success. -/
theorem Obtainable.foldl_after (hA : A.Obtainable) (operations : List Operation)
    (himported : ∀ op ∈ operations, ∀ B ∈ op.imported?, B.Obtainable) :
    (operations.foldl Operation.after A).Obtainable := by
  induction operations generalizing A with
  | nil => exact hA
  | cons op rest ih =>
    rw [List.forall_mem_cons] at himported
    exact ih (hA.after op himported.1) himported.2

/-- What can be obtained is well-formed. -/
theorem Obtainable.wellFormed (hA : A.Obtainable) : A.WellFormed := by
  induction hA with
  | singleton start => exact WellFormed.singleton start
  | read h => exact wellFormed_of_read h
  | readLabelled h => exact NamedAutomaton.wellFormed_of_read h
  | construct h => exact Expression.wellFormed_toAutomaton _ _ h
  | compile h hfew hA => exact (Compiler.run_follows _ _ _ h).wellFormed_stages hfew _ hA
  | determinize _ hfew _ => exact wellFormed_determinize hfew
  | operate _ op _ hrun ih ihimported =>
    rw [op.run_regardless_execute] at hrun
    cases hrun
    exact op.wellFormed_after ih ihimported

/-- Well-formed automata are equal if they have the same parts. -/
theorem WellFormed.eq_iff (hA : A.WellFormed) (hB : B.WellFormed) :
    A = B ↔ A.start = B.start ∧ A.vertices = B.vertices ∧ A.finishes = B.finishes ∧
      ∀ t, t ∈ A.transitions ↔ t ∈ B.transitions := by
  constructor
  · rintro rfl
    exact ⟨rfl, rfl, rfl, fun _ => Iff.rfl⟩
  · rintro ⟨hstart, hvertices, hfinishes, htransitions⟩
    refine hA.ext hB hstart (fun q => ?_) (fun q => ?_) fun q s => ?_
    · rw [Bool.eq_iff_iff, ← mem_vertices, ← mem_vertices, hvertices]
    · rw [isFinish, isFinish, hfinishes]
    · refine Std.ExtTreeSet.ext_mem fun r => ?_
      have ht := htransitions ⟨q, s, r⟩
      rwa [mem_transitions_iff, mem_transitions_iff] at ht

/-- Obtainable automata are well-formed, hence equal if they have the same parts. The removal of a
transition that was just added gives back the automaton as it was, and operations in place, whether
they fail or not, leave an automaton that is obtainable and well-formed again. -/
theorem Obtainable.wellFormed_ext (hA : A.Obtainable) (hB : B.Obtainable) :
    A.WellFormed ∧
      (∀ t ∈ A.transitions, A.contains t.source = true ∧ A.contains t.target = true) ∧
      (A = B ↔ A.start = B.start ∧ A.vertices = B.vertices ∧ A.finishes = B.finishes ∧
        ∀ t, t ∈ A.transitions ↔ t ∈ B.transitions) ∧
      (∀ t C, A.connect t = .ok (true, C) → C.disconnect t = .ok A) ∧
      ∀ operations : List Operation,
        (∀ op ∈ operations, ∀ C ∈ op.imported?, C.Obtainable) →
          ∃ C, (Operation.executeAll operations).run A = .ok () C ∧ C.Obtainable ∧ C.WellFormed := by
  have hwell := hA.wellFormed
  refine ⟨hwell, fun t ht => ?_, hwell.eq_iff hB.wellFormed, fun t C => hwell.disconnect_of_connect,
    fun operations himported => ?_⟩
  · rw [mem_transitions_iff] at ht
    exact ⟨contains_of_mem_successors ht, hwell.contains_target _ _ _ ht⟩
  · have hafter := hA.foldl_after operations himported
    exact ⟨_, Operation.run_executeAll operations, hafter, hafter.wellFormed⟩

/-- A loop that is added, kept through an import and a failure, and removed again. -/
def loopAndBack : List Operation :=
  [.connect ⟨0, some 'a', 0⟩, .importAlong (singleton 3) fun _ => 0, .markFinish 7,
    .disconnect ⟨0, some 'a', 0⟩]

/-- What there is after the loop was added and removed. -/
def emptiedLoop : Automaton :=
  loopAndBack.foldl Operation.after (singleton 0)

/-- All that the loop needs is imported from a single vertex. -/
theorem obtainable_of_mem_loopAndBack :
    ∀ op ∈ loopAndBack, ∀ C ∈ op.imported?, C.Obtainable := by
  simp [loopAndBack, Operation.imported?, Obtainable.singleton]

/-- The emptied loop is as if the loop had never been there, and that is what the operations leave in
place. -/
theorem wellFormed_ext_emptiedLoop :
    emptiedLoop.Obtainable ∧ (singleton 0).Obtainable ∧ emptiedLoop = singleton 0 ∧
      ∃ C, (Operation.executeAll loopAndBack).run (singleton 0) = .ok () C ∧ C.WellFormed ∧
        C = singleton 0 := by
  have hone := Obtainable.singleton 0
  have hloop : emptiedLoop.Obtainable := hone.foldl_after loopAndBack obtainable_of_mem_loopAndBack
  have hvertices : emptiedLoop.vertices = (singleton 0).vertices := by decide +kernel
  have hfinishes : emptiedLoop.finishes = (singleton 0).finishes := by decide +kernel
  have htransitions : emptiedLoop.transitions = (singleton 0).transitions := by decide +kernel
  have hempty : emptiedLoop = singleton 0 :=
    (hloop.wellFormed_ext hone).2.2.1.2 ⟨rfl, hvertices, hfinishes, fun t => by rw [htransitions]⟩
  obtain ⟨_, _, _, _, hoperations⟩ := hone.wellFormed_ext hone
  obtain ⟨C, hrun, _, hwell⟩ := hoperations loopAndBack obtainable_of_mem_loopAndBack
  refine ⟨hloop, hone, hempty, C, hrun, hwell, ?_⟩
  rw [Operation.run_executeAll] at hrun
  cases hrun
  exact hempty

end Automaton

end Recognizer
