import Recognizer.Proofs.Document.RoundTrip
import Recognizer.Proofs.Stages

/-!
# No stage of a compilation loses anything in a document

A document does not mention a vertex that is neither the start nor a finish nor an end of a
transition. A productive automaton has no such vertex, because a path to a finish that does not end
where it starts has a first step. The sink is not productive, but it is only added for a missing
move, which then leads to it.

So every stage of a compilation reads back as it was written, provided that neither the expression
nor the configured alphabet has a line break (`Compiler.roundTrips_of_run`).
-/

namespace Recognizer

namespace Automaton

variable {A : Automaton} {characters : Alphabet} {q : Vertex}

/-- The automaton can be written, and its document reads back as the automaton. -/
def RoundTrips (A : Automaton) : Prop :=
  ∃ text, A.write = .ok text ∧ read text = .ok A

/-- What uses no line break can be written. -/
theorem WellFormed.isWritable (hA : A.WellFormed)
    (hcharacters : ∀ c ∈ A.alphabet, c ≠ '\n' ∧ c ≠ '\r') : A.IsWritable := by
  rw [isWritable_iff]
  intro t ht
  have hused {c : Char} (hc : t.symbol = some c) : c ∈ A.alphabet :=
    hA.mem_alphabet_iff.2 ⟨t.source, t.target, hc ▸ mem_transitions_iff.1 ht⟩
  constructor
  · intro hfeed
    exact (hcharacters _ (hused hfeed)).1 rfl
  · intro hreturn
    exact (hcharacters _ (hused hreturn)).2 rfl

/-- An automaton that uses no line break and mentions all its vertices reads back. -/
theorem WellFormed.roundTrips (hA : A.WellFormed)
    (hmentions : ∀ q, A.contains q = true → A.mentions q = true)
    (hcharacters : ∀ c ∈ A.alphabet, c ≠ '\n' ∧ c ≠ '\r') : A.RoundTrips := by
  have hwritable := hA.isWritable hcharacters
  refine ⟨toString A, write_eq_ok_iff.2 ⟨hwritable, rfl⟩, ?_⟩
  rw [read_toString hA hwritable, hA.dropUnmentioned_eq_self hmentions]

/-- A productive automaton mentions all its vertices. -/
theorem Productive.mentions (h : A.Productive) (hq : A.contains q = true) :
    A.mentions q = true := by
  obtain ⟨w, p, hp, hpath⟩ := h q hq
  cases hpath with
  | nil => exact mentions_iff.2 (Or.inr (Or.inl hp))
  | step first _ => exact (mentions_of_mem_successors first).1

/-- With a sink that takes a missing move, all vertices are mentioned if they were before. -/
theorem mentions_withSink (h : ∀ q, A.contains q = true → A.mentions q = true)
    (hmissing : A.missingMoves characters ≠ [])
    (hq : (A.withSink characters).contains q = true) :
    (A.withSink characters).mentions q = true := by
  rcases contains_withSink.1 hq with rfl | hold
  · obtain ⟨⟨p, c⟩, hmove⟩ := List.exists_mem_of_ne_nil _ hmissing
    obtain ⟨hp, hc, hentry⟩ := mem_missingMoves.1 hmove
    have hredirected : A.greatestVertex + 1 ∈ (A.withSink characters).successors p (some c) :=
      mem_successors_withSink.2 (Or.inr ⟨rfl, c, hc, rfl, Or.inr ⟨hp, hentry⟩⟩)
    exact (mentions_of_mem_successors hredirected).2
  · rw [mentions_iff, start_withSink, isFinish_withSink]
    refine (mentions_iff.1 (h q hold)).imp_right (Or.imp_right ?_)
    rintro ⟨t, ht, hend⟩
    exact ⟨t, mem_transitions_iff.2 (mem_successors_withSink.2
      (Or.inl (mem_transitions_iff.1 ht))), hend⟩

end Automaton

namespace Compilation.Follows

variable {compilation : Compilation} {C : Compiler} {e : Expression}

/-- All stages mention all their vertices. -/
theorem mentions_stages (h : compilation.Follows C e)
    (hfew : compilation.determinized.subsets.length < UInt32.size) :
    ∀ A ∈ compilation.stages, ∀ q, A.contains q = true → A.mentions q = true := by
  have hdeterminized (q : Vertex) := (h.productive_determinized hfew).mentions (q := q)
  refine forall_mem_stages.2 ⟨fun q => h.realizes.productive.mentions,
    fun q => h.productive_epsilonFree.mentions, hdeterminized, fun q hq => ?_⟩
  rcases h.result_cases hfew with ⟨_, hresult⟩ | ⟨_, hresult, hmissing⟩
  · rw [hresult] at hq ⊢
    exact hdeterminized q hq
  · rw [hresult] at hq ⊢
    exact Automaton.mentions_withSink hdeterminized hmissing hq

end Compilation.Follows

namespace Compiler

variable {C : Compiler} {e : Expression} {compilation : Compilation}

/-- The documents of all stages, the result among them, mention all their vertices. Unless the
expression or the configured alphabet has a line break, all stages are written and read back as they
were. -/
theorem roundTrips_of_run (h : C.run e = .ok compilation)
    (hfew : compilation.determinized.subsets.length < UInt32.size) :
    compilation.result ∈ compilation.stages ∧
      ∀ A ∈ compilation.stages, (∀ q, A.contains q = true → A.mentions q = true) ∧
        ((∀ c, some c ∈ e.symbols ∨ c ∈ C.alphabet → c ≠ '\n' ∧ c ≠ '\r') → A.RoundTrips) := by
  have hstages := C.run_follows e compilation h
  refine ⟨Compilation.result_mem_stages, fun A hA => ?_⟩
  have hmentions := hstages.mentions_stages hfew A hA
  refine ⟨hmentions, fun hsymbols => ?_⟩
  refine (hstages.wellFormed_stages hfew A hA).roundTrips hmentions fun c hc => ?_
  exact hsymbols c (hstages.mem_symbols_or_of_stages hfew A hA c hc)

/-- All automata of the letter loop read back, the result with its sink included. -/
theorem roundTrips_of_run_letterLoop :
    ∃ compilation, (Compiler.reading {} ['c']).run letterLoop = .ok compilation ∧
      compilation.determinized.subsets.length < UInt32.size ∧ compilation.sink = some 2 ∧
      compilation.result.RoundTrips := by
  obtain ⟨compilation, hrun, hfew, hsink⟩ := exists_run_letterLoop
  obtain ⟨hresult, hstages⟩ := roundTrips_of_run hrun hfew
  refine ⟨compilation, hrun, hfew, hsink, (hstages _ hresult).2 fun c hc => ?_⟩
  have hletters : c = 'a' ∨ 'c' = c := by
    simpa [letterLoop, Expression.symbols, Expression.char, Compiler.reading] using hc
  rcases hletters with rfl | rfl <;> decide

end Compiler

end Recognizer
