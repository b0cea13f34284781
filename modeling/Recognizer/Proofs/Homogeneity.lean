import Mathlib.Algebra.BigOperators.Group.Finset.Basic
import Mathlib.Data.List.Perm.Subperm
import Recognizer.Proofs.ClosureAgreement
import Recognizer.Proofs.Exploration
import Recognizer.Proofs.Landings
import Recognizer.Proofs.Stages

/-!
# Every set is entered on one character

Without silent steps, a move on a character leads to landings of this character only. If no vertex is
the landing of two characters, every set but the first therefore belongs to one of them, and if the
start is no landing, nothing leads back to the first set. So the automaton of the sets is homogeneous
(`HasLandings.isHomogeneous_determinize`), and there are no more sets than one for the start and, for
each character, one for every choice of some of its landings
(`HasLandings.length_reachableSubsets_le`).

For an expression the landings of a character are as many as its atoms. Hence the number of atoms
bounds the number of sets, and with few atoms the numbers of sets are not cut off
(`Compiler.run_isHomogeneous`).
-/

namespace Recognizer

open Std

namespace Automaton

variable {A : Automaton} {found : List (Char × Vertex)} {c d : Char} {q r : Vertex}
variable {states next : VertexSet}

/-! ### Sets of landings -/

/-- The vertices that are listed with a character. -/
def landingsOn (found : List (Char × Vertex)) (c : Char) : List Vertex :=
  (found.filter fun landing => landing.1 == c).map Prod.snd

/-- The landings on a character are the vertices found with it. -/
theorem mem_landingsOn : q ∈ landingsOn found c ↔ (c, q) ∈ found := by
  simp [landingsOn]

/-- There are as many of them as the character is listed. -/
theorem length_landingsOn : (landingsOn found c).length = (found.map Prod.fst).count c := by
  rw [landingsOn, List.length_map, List.count, List.countP_map, List.countP_eq_length_filter]
  rfl

/-- The set has members, and all of them are landings of the character. -/
structure LandsOn (found : List (Char × Vertex)) (c : Char) (states : VertexSet) : Prop where
  ne_empty : states ≠ ∅
  mem : ∀ q ∈ states, (c, q) ∈ found

section Found

variable (h : A.HasLandings found)
include h

/-- No set has landings of two characters. -/
theorem HasLandings.eq_of_landsOn (hc : LandsOn found c states) (hd : LandsOn found d states) :
    c = d := by
  obtain ⟨q, hq⟩ := exists_mem_of_ne_empty hc.ne_empty
  have heq : (c, q) = (d, q) :=
    List.inj_on_of_nodup_map h.nodup (hc.mem q hq) (hd.mem q hq) rfl
  exact congrArg Prod.fst heq

/-- The start belongs to no set of landings. -/
theorem HasLandings.start_notMem_of_landsOn (hc : LandsOn found c states) : A.start ∉ states :=
  fun hstart => h.start_notMem (List.mem_map_of_mem (hc.mem _ hstart))

section Silent

variable (hA : A.WellFormed) (hsilent : ∀ q r, r ∉ A.successors q none)
include hA hsilent

/-- Without silent steps a move leads to landings of its character. -/
theorem HasLandings.landsOn_of_move (hmove : (A.moves states)[c]? = some next) :
    LandsOn found c next := by
  obtain ⟨hget, hne⟩ := hA.getElem?_moves_iff.1 hmove
  refine ⟨hne, fun q hq => ?_⟩
  rw [← hget] at hq
  obtain ⟨p, _, r, hr, hreach⟩ := mem_moves_iff.1 hq
  exact hreach.eq (fun _ _ => hsilent _ _) ▸ h.mem_of_successor p c r hr

/-- Every set that is found but the first has landings of one character. -/
theorem HasLandings.eq_closure_or_landsOn (hstates : states ∈ A.reachableSubsets) :
    states = A.closure A.start ∨ ∃ c, LandsOn found c states := by
  refine forall_mem_discover (P := fun states => states = A.closure A.start ∨
    ∃ c, LandsOn found c states) (fun _ _ c next hmove => ?_) (fun states hmem => ?_) states hstates
  · exact Or.inr ⟨c, h.landsOn_of_move hA hsilent hmove⟩
  · exact Or.inl (List.mem_singleton.1 hmem)

end Silent

end Found

/-! ### Counting the sets -/

/-- A list has two to the power of its length many subsets. -/
theorem length_subsetsOf (qs : List Vertex) : (subsetsOf qs).length = 2 ^ qs.length := by
  induction qs with
  | nil => rfl
  | cons q rest ih =>
    rw [subsetsOf, List.length_append, List.length_map, ih, List.length_cons, Nat.pow_succ, Nat.mul_two]

/-- The sets with landings of one character, for each of the characters that are listed. -/
def landingSets (found : List (Char × Vertex)) : List VertexSet :=
  (found.map Prod.fst).dedup.flatMap fun c => (subsetsOf (landingsOn found c)).erase ∅

/-- Every set that is landed on is among the landing sets. -/
theorem LandsOn.mem_landingSets (h : LandsOn found c states) : states ∈ landingSets found := by
  obtain ⟨q, hq⟩ := exists_mem_of_ne_empty h.ne_empty
  refine List.mem_flatMap.2 ⟨c, ?_, ?_⟩
  · exact List.mem_dedup.2 (List.mem_map.2 ⟨(c, q), h.mem q hq, rfl⟩)
  · refine (List.mem_erase_of_ne h.ne_empty).2 (mem_subsetsOf fun q hq => ?_)
    exact mem_landingsOn.2 (h.mem q hq)

/-- The landing sets are the non-empty subsets of the landings on each character. -/
theorem length_landingSets :
    (landingSets found).length = ∑ c ∈ (found.map Prod.fst).toFinset,
      (2 ^ (found.map Prod.fst).count c - 1) := by
  have hlength (c : Char) : ((subsetsOf (landingsOn found c)).erase ∅).length =
      2 ^ (found.map Prod.fst).count c - 1 := by
    have hempty : ∅ ∈ subsetsOf (landingsOn found c) :=
      mem_subsetsOf fun q hq => absurd hq ExtTreeSet.not_mem_empty
    rw [List.length_erase_of_mem hempty, length_subsetsOf, length_landingsOn]
  rw [landingSets, List.length_flatMap]
  simp only [hlength]
  rfl

/-- The first set apart, the search finds no more sets than there are sets of landings. -/
theorem HasLandings.length_reachableSubsets_le (h : A.HasLandings found) (hA : A.WellFormed)
    (hsilent : ∀ q r, r ∉ A.successors q none) :
    A.reachableSubsets.length ≤ 1 + ∑ c ∈ (found.map Prod.fst).toFinset,
      (2 ^ (found.map Prod.fst).count c - 1) := by
  have hsub : A.reachableSubsets ⊆ A.closure A.start :: landingSets found := by
    intro states hstates
    rcases h.eq_closure_or_landsOn hA hsilent hstates with rfl | ⟨c, hc⟩
    · exact List.mem_cons_self
    · exact List.mem_cons_of_mem _ hc.mem_landingSets
  have hle := (List.subperm_of_subset nodup_reachableSubsets hsub).length_le
  rw [List.length_cons, length_landingSets] at hle
  omega

/-- Sets of one character each are no more than sets of all characters together. -/
theorem one_add_sum_two_pow_le (counted : Finset Char) (count : Char → Nat) :
    1 + ∑ c ∈ counted, (2 ^ count c - 1) ≤ 2 ^ ∑ c ∈ counted, count c := by
  induction counted using Finset.induction_on with
  | empty => simp
  | insert c rest hc ih =>
    rw [Finset.sum_insert hc, Finset.sum_insert hc, Nat.pow_add]
    have hone : 1 ≤ 2 ^ count c := Nat.one_le_two_pow
    calc 1 + (2 ^ count c - 1 + ∑ c ∈ rest, (2 ^ count c - 1))
        = 2 ^ count c + 1 * ∑ c ∈ rest, (2 ^ count c - 1) := by omega
      _ ≤ 2 ^ count c + 2 ^ count c * ∑ c ∈ rest, (2 ^ count c - 1) :=
        Nat.add_le_add_left (Nat.mul_le_mul_right _ hone) _
      _ = 2 ^ count c * (1 + ∑ c ∈ rest, (2 ^ count c - 1)) := by rw [Nat.mul_add, Nat.mul_one]
      _ ≤ 2 ^ count c * 2 ^ ∑ c ∈ rest, count c := Nat.mul_le_mul_left _ ih

/-! ### The transitions between the sets -/

/-- No transition enters the start, and those that enter any other vertex have one symbol. -/
structure IsHomogeneous (A : Automaton) : Prop where
  target_ne_start : ∀ t ∈ A.transitions, t.target ≠ A.start
  symbol_eq : ∀ t ∈ A.transitions, ∀ t' ∈ A.transitions,
    t.target = t'.target → t.symbol = t'.symbol

section Bounded

variable (h : A.HasLandings found) (hA : A.WellFormed) (hsilent : ∀ q r, r ∉ A.successors q none)
variable (hfew : A.determinize.subsets.length < UInt32.size)
include h hA hsilent hfew

/-- A transition between sets leads to landings of its character. -/
theorem HasLandings.exists_landsOn {t : Transition Vertex}
    (ht : t ∈ A.determinize.automaton.transitions) :
    ∃ c states, t.symbol = some c ∧ A.determinize.subset t.target = some states ∧
      LandsOn found c states := by
  obtain ⟨states, next, c, hc, _, hmove, hnext⟩ :=
    (mem_successors_determinize hfew).1 (mem_transitions_iff.1 ht)
  exact ⟨c, next, hc, hnext, h.landsOn_of_move hA hsilent hmove⟩

/-- The automaton of the sets is homogeneous. -/
theorem HasLandings.isHomogeneous_determinize : A.determinize.automaton.IsHomogeneous := by
  refine ⟨fun t ht hstart => ?target, fun t ht t' ht' htarget => ?symbol⟩
  case target =>
    obtain ⟨c, states, _, hstates, hlands⟩ := h.exists_landsOn hA hsilent hfew ht
    have hfirst : A.determinize.subset t.target = some (A.closure A.start) := by
      rw [hstart, start_determinize]
      exact subset_vertexAt hfew getElem?_reachableSubsets_zero
    rw [hfirst, Option.some.injEq] at hstates
    exact h.start_notMem_of_landsOn hlands (hstates ▸ mem_closure.2 .refl)
  case symbol =>
    obtain ⟨c, states, hc, hstates, hlands⟩ := h.exists_landsOn hA hsilent hfew ht
    obtain ⟨d, states', hd, hstates', hlands'⟩ := h.exists_landsOn hA hsilent hfew ht'
    rw [htarget, hstates', Option.some.injEq] at hstates
    rw [hc, hd, h.eq_of_landsOn hlands (hstates ▸ hlands')]

end Bounded

/-! ### Constructed automata -/

variable {e : Expression} {N : Automaton}

/-- After elimination, the search finds at most one set for the start and one for every set of atoms
with one character. -/
theorem Realizes.length_reachableSubsets_le (hN : N.Realizes e.vertexCount [e.exit] e.steps) :
    N.eliminateEpsilon.reachableSubsets.length ≤
      1 + ∑ c ∈ e.characters.toFinset, (2 ^ e.characters.count c - 1) := by
  have hle := hN.hasLandings.eliminateEpsilon.length_reachableSubsets_le
    hN.wellFormed.eliminateEpsilon fun _ _ => not_mem_successors_eliminateEpsilon
  rwa [map_fst_landingsOf] at hle

/-- Few atoms on characters leave identifiers enough for the sets. -/
theorem Realizes.length_subsets_lt (hN : N.Realizes e.vertexCount [e.exit] e.steps)
    (hatoms : e.characters.length ≤ 31) :
    N.eliminateEpsilon.determinize.subsets.length < UInt32.size := by
  calc N.eliminateEpsilon.determinize.subsets.length
      ≤ 1 + ∑ c ∈ e.characters.toFinset, (2 ^ e.characters.count c - 1) :=
        hN.length_reachableSubsets_le
    _ ≤ 2 ^ ∑ c ∈ e.characters.toFinset, e.characters.count c := one_add_sum_two_pow_le _ _
    _ = 2 ^ e.characters.length := by rw [List.sum_toFinset_count_eq_length]
    _ ≤ 2 ^ 31 := Nat.pow_le_pow_right Nat.two_pos hatoms
    _ < UInt32.size := by decide

end Automaton

namespace Compiler

open Automaton

/-- With few atoms on characters, compilation succeeds as soon as construction does. -/
theorem exists_run_of_few_atoms (C : Compiler) {e : Expression}
    (hsize : e.vertexCount ≤ UInt32.size) (hatoms : e.characters.length ≤ 31) :
    ∃ compilation, C.run e = .ok compilation ∧
      compilation.determinized.subsets.length < UInt32.size := by
  obtain ⟨N, hN, hrealizes⟩ := e.toAutomaton_realizes hsize
  have hfew := hrealizes.length_subsets_lt hatoms
  exact ⟨_, run_eq_ok hN hfew, hfew⟩

/-- The deterministic automaton of a compilation is homogeneous, and its vertices are no more than
the sets of atoms with one character, and one. With at most 31 atoms on characters, the sets that
are met never use up the identifiers, so every number is the place of its set in the list. -/
theorem run_isHomogeneous (C : Compiler) (e : Expression) :
    (∀ compilation, C.run e = .ok compilation →
      compilation.determinized.subsets.length < UInt32.size →
      compilation.determinized.automaton.IsHomogeneous ∧
        compilation.determinized.automaton.size ≤
          1 + ∑ c ∈ e.characters.toFinset, (2 ^ e.characters.count c - 1)) ∧
    (e.characters.length ≤ 31 → ∀ N, e.toAutomaton = .ok N →
      N.eliminateEpsilon.determinize.subsets.length < UInt32.size ∧
        ∀ n E, Exploration.after? N.eliminateEpsilon n = some E →
          E.table.sets.length < UInt32.size ∧
            ∀ (states : VertexSet) (q : Vertex), E.table.numbers[states]? = some q ↔
              E.table.sets[q.toNat]? = some states) := by
  refine ⟨fun compilation hrun hfew => ?_, fun hatoms N hN => ?_⟩
  · have hstages := C.run_follows e compilation hrun
    have hfree := hstages.wellFormed_epsilonFree
    have hrealizes := hstages.realizes
    rw [hstages.determinized_eq, hstages.epsilonFree_eq] at hfew ⊢
    rw [hstages.epsilonFree_eq] at hfree
    refine ⟨hrealizes.hasLandings.eliminateEpsilon.isHomogeneous_determinize hfree
      (fun _ _ => not_mem_successors_eliminateEpsilon) hfew, ?_⟩
    rw [size_determinize hfew]
    exact hrealizes.length_reachableSubsets_le
  · have hrealizes := Expression.realizes_of_toAutomaton_eq_ok hN
    have hfew := hrealizes.length_subsets_lt hatoms
    refine ⟨hfew, fun n E hafter => ?_⟩
    have hexpanded := Exploration.hasExpanded_of_after? hfew hafter
    refine ⟨?_, fun states q => hexpanded.numbers_eq_some_iff hfew⟩
    exact Nat.lt_of_le_of_lt hexpanded.prefix_reachableSubsets.length_le hfew

/-- A word of letters `a` and `b` whose last letter but one is an `a`. -/
def lastButOne : Expression :=
  .seq (.seq (.star (.alt (.char 'a') (.char 'b'))) (.char 'a')) (.alt (.char 'a') (.char 'b'))

/-- The deterministic automaton for the last letter but one is homogeneous and has at most eleven
vertices. When the last set has been expanded, there are still identifiers left. -/
theorem run_isHomogeneous_lastButOne :
    ∃ compilation, Compiler.run {} lastButOne = .ok compilation ∧
      compilation.determinized.subsets.length < UInt32.size ∧
      compilation.determinized.automaton.IsHomogeneous ∧
      compilation.determinized.automaton.size ≤ 11 ∧
      lastButOne.characters.length ≤ 31 ∧
      lastButOne.toAutomaton = .ok compilation.constructed ∧
      ∃ n E, Exploration.after? compilation.constructed.eliminateEpsilon n = some E ∧
        E.queue = [] ∧ E.table.sets.length < UInt32.size := by
  have hatoms : lastButOne.characters.length ≤ 31 := by decide
  obtain ⟨compilation, hrun, hfew⟩ := exists_run_of_few_atoms {} (by decide) hatoms
  have hN := (run_follows {} lastButOne compilation hrun).toAutomaton_eq
  obtain ⟨hhomogeneous, hsize⟩ := (run_isHomogeneous {} lastButOne).1 compilation hrun hfew
  obtain ⟨hfree, hsets⟩ := (run_isHomogeneous {} lastButOne).2 hatoms _ hN
  obtain ⟨E, hafter, hqueue, _⟩ := Exploration.exists_after?_length hfree
  exact ⟨compilation, hrun, hfew, hhomogeneous, hsize, hatoms, hN, _, E, hafter, hqueue,
    (hsets _ E hafter).1⟩

end Compiler

end Recognizer
