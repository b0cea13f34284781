import Recognizer.Compiler
import Recognizer.Proofs.ConstructionLimit

/-!
# The grouping of concatenations does not matter

Expressions may be grouped differently where concatenations follow one another, anywhere in the tree.
They have the same blueprint: an offset for a part is the number of vertices before it, and offsets add
up no matter how often the part is moved (`moveUp_moveUp`); the link between two parts leads from the
exit of the one to the first number of the other, no matter when it is laid.

An automaton is known from the blueprint that it follows, so the automata are equal, identifiers
included, and all that is made of them. When identifiers run out, they do so for both groupings, though
not necessarily at the same vertex.
-/

namespace Recognizer

open Std

namespace Automaton.Realizes

variable {A B : Automaton} {n : Nat} {exits : List Nat} {steps : List (Transition Nat)}

/-- Only one automaton follows a blueprint. -/
theorem unique (hA : A.Realizes n exits steps) (hB : B.Realizes n exits steps) : A = B := by
  refine hA.wellFormed.ext hB.wellFormed (hA.start_eq.trans hB.start_eq.symm) (fun q => ?_)
    (fun q => ?_) fun q s => ExtTreeSet.ext_mem fun r => ?_
  · rw [Bool.eq_iff_iff, hA.contains_iff, hB.contains_iff]
  · rw [Bool.eq_iff_iff, hA.isFinish_iff, hB.isFinish_iff]
  · rw [hA.mem_successors_iff, hB.mem_successors_iff]

end Automaton.Realizes

namespace Expression

/-- The expressions differ only in how concatenations are grouped. -/
inductive Reassociates : Expression → Expression → Prop where
  | assoc (a b c : Expression) : Reassociates (seq (seq a b) c) (seq a (seq b c))
  | refl (e : Expression) : Reassociates e e
  | symm {e f : Expression} (h : Reassociates e f) : Reassociates f e
  | trans {e f g : Expression} (h : Reassociates e f) (h' : Reassociates f g) : Reassociates e g
  | seq {l l' r r' : Expression} (hl : Reassociates l l') (hr : Reassociates r r') :
    Reassociates (seq l r) (seq l' r')
  | alt {l l' r r' : Expression} (hl : Reassociates l l') (hr : Reassociates r r') :
    Reassociates (alt l r) (alt l' r')
  | star {e f : Expression} (h : Reassociates e f) : Reassociates (star e) (star f)

variable {e f : Expression} {m n : Nat} {steps steps' : List (Transition Nat)}

/-! ### The same blueprint -/

/-- Moving up twice is moving up by the sum. -/
theorem moveUp_moveUp : moveUp m (moveUp n steps) = moveUp (n + m) steps := by
  rw [moveUp, moveUp, moveUp, List.map_map]
  refine List.map_congr_left fun t _ => ?_
  simp only [Function.comp_apply, Transition.rename, Nat.add_assoc]

/-- Joined lists of steps are moved up one after the other. -/
theorem moveUp_append : moveUp m (steps ++ steps') = moveUp m steps ++ moveUp m steps' :=
  List.map_append

/-- Steps are moved up one by one. -/
theorem moveUp_cons {t : Transition Nat} :
    moveUp m (t :: steps) = ⟨t.source + m, t.symbol, t.target + m⟩ :: moveUp m steps := rfl

/-- Both groupings of three parts have the same steps. -/
theorem steps_seq_assoc (a b c : Expression) : (seq (seq a b) c).steps = (seq a (seq b c)).steps := by
  simp only [Expression.steps, Expression.exit, vertexCount, moveUp_append, moveUp_cons,
    moveUp_moveUp, List.append_assoc, List.cons_append, Nat.add_comm a.vertexCount]

/-- The grouping changes nothing in the blueprint. -/
theorem Reassociates.blueprint_eq (h : e.Reassociates f) :
    e.vertexCount = f.vertexCount ∧ e.exit = f.exit ∧ e.steps = f.steps := by
  induction h with
  | assoc a b c =>
    refine ⟨Nat.add_assoc _ _ _, ?_, steps_seq_assoc a b c⟩
    simp only [Expression.exit, vertexCount]
    omega
  | refl e => exact ⟨rfl, rfl, rfl⟩
  | symm _ ih => exact ⟨ih.1.symm, ih.2.1.symm, ih.2.2.symm⟩
  | trans _ _ ih ih' => exact ⟨ih.1.trans ih'.1, ih.2.1.trans ih'.2.1, ih.2.2.trans ih'.2.2⟩
  | seq _ _ ihl ihr =>
    obtain ⟨hcountl, hexitl, hstepsl⟩ := ihl
    obtain ⟨hcountr, hexitr, hstepsr⟩ := ihr
    simp only [vertexCount, Expression.exit, Expression.steps, hcountl, hexitl, hstepsl, hcountr,
      hexitr, hstepsr, and_self]
  | alt _ _ ihl ihr =>
    obtain ⟨hcountl, hexitl, hstepsl⟩ := ihl
    obtain ⟨hcountr, hexitr, hstepsr⟩ := ihr
    simp only [vertexCount, Expression.exit, Expression.steps, hcountl, hexitl, hstepsl, hcountr,
      hexitr, hstepsr, and_self]
  | star _ ih =>
    obtain ⟨hcount, hexit, hsteps⟩ := ih
    simp only [vertexCount, Expression.exit, Expression.steps, hcount, hexit, hsteps, and_self]

/-! ### The same automaton -/

/-- While the identifiers suffice, both groupings have the same automaton. -/
theorem Reassociates.exists_toAutomaton_eq (h : e.Reassociates f)
    (hfits : e.vertexCount ≤ UInt32.size) :
    ∃ A, e.toAutomaton = .ok A ∧ f.toAutomaton = .ok A := by
  obtain ⟨hcount, hexit, hsteps⟩ := h.blueprint_eq
  obtain ⟨A, hA, hrealizesA⟩ := e.toAutomaton_realizes hfits
  obtain ⟨B, hB, hrealizesB⟩ := f.toAutomaton_realizes (hcount ▸ hfits)
  rw [← hcount, ← hexit, ← hsteps] at hrealizesB
  exact ⟨A, hA, hrealizesA.unique hrealizesB ▸ hB⟩

/-- While the identifiers suffice, compilation goes alike in every configuration. -/
theorem Reassociates.run_eq (h : e.Reassociates f) (hfits : e.vertexCount ≤ UInt32.size)
    (C : Compiler) : C.run e = C.run f := by
  obtain ⟨A, he, hf⟩ := h.exists_toAutomaton_eq hfits
  rw [Compiler.run, Compiler.run, he, hf]

/-- If one grouping lacks identifiers, so does the other. -/
theorem Reassociates.overflows (h : e.Reassociates f) (hfull : UInt32.size < e.vertexCount) :
    Overflows e.toAutomaton ∧ Overflows f.toAutomaton :=
  ⟨toAutomaton_overflows hfull, toAutomaton_overflows (h.blueprint_eq.1 ▸ hfull)⟩

/-- Only the number of vertices decides whether the construction overflows. -/
theorem Reassociates.overflows_iff (h : e.Reassociates f) :
    Overflows e.toAutomaton ↔ Overflows f.toAutomaton := by
  rcases Nat.lt_or_ge UInt32.size e.vertexCount with hfull | hfits
  · obtain ⟨he, hf⟩ := h.overflows hfull
    exact iff_of_true he hf
  · obtain ⟨A, he, hf⟩ := h.exists_toAutomaton_eq hfits
    rw [he, hf]

/-- Three parts have one automaton, however they are grouped. In general, expressions that differ only
in how concatenations are grouped have the same automaton and are compiled alike in every
configuration, unless both overflow. -/
theorem toAutomaton_reassociates :
    (∀ a b c : Expression, (seq (seq a b) c).vertexCount ≤ UInt32.size →
      ∃ A, (seq (seq a b) c).toAutomaton = .ok A ∧ (seq a (seq b c)).toAutomaton = .ok A) ∧
    ∀ e f : Expression, e.Reassociates f →
      (e.vertexCount ≤ UInt32.size → (∃ A, e.toAutomaton = .ok A ∧ f.toAutomaton = .ok A) ∧
        ∀ C : Compiler, C.run e = C.run f) ∧
      (UInt32.size < e.vertexCount → (Overflows e.toAutomaton ∧ Overflows f.toAutomaton) ∧
        ∀ C : Compiler, Overflows (C.run e) ∧ Overflows (C.run f)) ∧
      (Overflows e.toAutomaton ↔ Overflows f.toAutomaton) := by
  refine ⟨fun a b c hfits => (Reassociates.assoc a b c).exists_toAutomaton_eq hfits,
    fun e f h => ⟨fun hfits => ?fits, fun hfull => ?full, h.overflows_iff⟩⟩
  case fits => exact ⟨h.exists_toAutomaton_eq hfits, h.run_eq hfits⟩
  case full =>
    obtain ⟨he, hf⟩ := h.overflows hfull
    exact ⟨⟨he, hf⟩, fun C => ⟨he.bind, hf.bind⟩⟩

/-- Three parts grouped to the left, under an alternation and a closure. -/
def groupedLeft : Expression :=
  star (alt (seq (seq (char 'a') epsilon) (char 'b')) (char 'c'))

/-- The same parts grouped to the right. -/
def groupedRight : Expression :=
  star (alt (seq (char 'a') (seq epsilon (char 'b'))) (char 'c'))

/-- The grouping to the left re-associates to that to the right. -/
theorem reassociates_groupedLeft : groupedLeft.Reassociates groupedRight :=
  .star (.alt (.assoc _ _ _) (.refl _))

/-- Both groupings have one automaton and are compiled alike. Where the identifiers run out, they do so
for both groupings. -/
theorem toAutomaton_groupedLeft_reassociates :
    (∃ A, (seq (seq (char 'a') epsilon) (char 'b')).toAutomaton = .ok A ∧
        (seq (char 'a') (seq epsilon (char 'b'))).toAutomaton = .ok A) ∧
      groupedLeft ≠ groupedRight ∧ groupedLeft.Reassociates groupedRight ∧
      (∃ A, groupedLeft.toAutomaton = .ok A ∧ groupedRight.toAutomaton = .ok A) ∧
      (∀ C : Compiler, C.run groupedLeft = C.run groupedRight) ∧
      Overflows (seq (seq (doubled 31) epsilon) epsilon).toAutomaton ∧
      Overflows (seq (doubled 31) (seq epsilon epsilon)).toAutomaton := by
  have hfull : UInt32.size < (seq (seq (doubled 31) epsilon) epsilon).vertexCount := by
    rw [vertexCount, vertexCount, vertexCount_doubled]
    decide
  obtain ⟨hassoc, hreassociates⟩ := toAutomaton_reassociates
  obtain ⟨hautomaton, hrun⟩ := (hreassociates _ _ reassociates_groupedLeft).1 (by decide)
  obtain ⟨hleft, hright⟩ := ((hreassociates _ _ (.assoc (doubled 31) epsilon epsilon)).2.1 hfull).1
  exact ⟨hassoc _ _ _ (by decide), by decide, reassociates_groupedLeft, hautomaton, hrun, hleft, hright⟩

end Expression

end Recognizer
