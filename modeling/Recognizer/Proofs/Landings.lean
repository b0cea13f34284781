import Mathlib.Data.List.Nodup
import Recognizer.Proofs.BlueprintShape
import Recognizer.Proofs.Construction
import Recognizer.Proofs.Elimination

/-!
# Where the letters of an expression land

Each atom on a character becomes one step of the blueprint, and the number that this step leads to
is its landing. The parts of an expression keep their atoms apart: landings are moved up along with
the numbers, and the glue between the parts is silent. So the landings come in the order of the
atoms (`map_fst_landings`), no number is the landing of two atoms (`nodup_landingNumbers`), and zero
is the landing of none (`zero_notMem_landingNumbers`).

The steps of a constructed automaton on characters therefore enter few vertices, each on one
character only, and never the start (`Realizes.hasLandings`). Elimination keeps this, since it
copies steps to other sources but not to other targets (`HasLandings.eliminateEpsilon`).
-/

namespace Recognizer

namespace Expression

variable {e l r : Expression} {c : Char} {m n offset exit into : Nat}
variable {steps more : List (Transition Nat)}

/-- The characters of the atoms, from left to right. -/
def characters (e : Expression) : List Char :=
  e.symbols.filterMap id

/-- The characters of an expression are those among its symbols. -/
theorem mem_characters : c ∈ e.characters ↔ some c ∈ e.symbols := by
  rw [characters, List.mem_filterMap]
  simp only [id_eq, exists_eq_right]

/-! ### The landings of a blueprint -/

/-- The steps on characters, each as its character with the number that it leads to. -/
def landings (steps : List (Transition Nat)) : List (Char × Nat) :=
  steps.filterMap fun t => t.symbol.map (·, t.target)

/-- A landing is a step on a character. -/
theorem mem_landings : (c, m) ∈ landings steps ↔ ∃ n, ⟨n, some c, m⟩ ∈ steps := by
  rw [landings, List.mem_filterMap]
  constructor
  · intro h
    obtain ⟨⟨n, s, m'⟩, ht, hs⟩ := h
    obtain ⟨d, rfl, heq⟩ := Option.map_eq_some_iff.1 hs
    obtain ⟨rfl, rfl⟩ := Prod.mk.injEq _ _ _ _ ▸ heq
    exact ⟨n, ht⟩
  · intro h
    obtain ⟨n, ht⟩ := h
    exact ⟨_, ht, rfl⟩

/-- The landings of joined lists of steps are joined. -/
theorem landings_append : landings (steps ++ more) = landings steps ++ landings more :=
  List.filterMap_append

/-- A silent step lands nowhere. -/
theorem landings_cons_silent : landings (⟨n, none, m⟩ :: steps) = landings steps :=
  List.filterMap_cons_none rfl

/-- Landings are moved up along with the steps. -/
theorem landings_moveUp :
    landings (moveUp offset steps) = (landings steps).map (Prod.map id (· + offset)) := by
  rw [landings, landings, moveUp, List.filterMap_map, List.map_filterMap]
  refine List.filterMap_congr fun t _ => ?_
  rw [Function.comp_apply, Option.map_map]
  rfl

/-- The ways into a detour and out of it are silent. -/
theorem landings_detour :
    landings (detour offset exit into steps) =
      (landings steps).map (Prod.map id (· + offset)) := by
  rw [detour, landings_cons_silent, landings_cons_silent, landings_moveUp]

/-- The landings of a sequence are those of the left part, then those of the right part behind it.
-/
theorem landings_seq :
    landings (seq l r).steps =
      landings l.steps ++ (landings r.steps).map (Prod.map id (· + l.vertexCount)) := by
  rw [Expression.steps, landings_append, landings_cons_silent, landings_moveUp]

/-- The landings of an alternative are those of its branches, behind the two ends. -/
theorem landings_alt :
    landings (alt l r).steps =
      (landings l.steps).map (Prod.map id (· + 2)) ++
        (landings r.steps).map (Prod.map id (· + (l.vertexCount + 2))) := by
  rw [Expression.steps, landings_append, landings_detour, landings_detour]

/-- The landings of a repetition are those of its body, behind the start. -/
theorem landings_star :
    landings (star e).steps = (landings e.steps).map (Prod.map id (· + 1)) := by
  rw [Expression.steps, landings_detour]

/-- Moved landings have the same characters. -/
theorem map_fst_moved {found : List (Char × Nat)} :
    (found.map (Prod.map id (· + offset))).map Prod.fst = found.map Prod.fst := by
  rw [List.map_map]
  rfl

/-- The vertices of moved landings are moved. -/
theorem map_snd_moved {found : List (Char × Nat)} :
    (found.map (Prod.map id (· + offset))).map Prod.snd =
      (found.map Prod.snd).map (· + offset) := by
  rw [List.map_map, List.map_map]
  rfl

/-- The landings come in the order of the atoms, one for each atom on a character. -/
theorem map_fst_landings (e : Expression) : (landings e.steps).map Prod.fst = e.characters := by
  unfold characters
  induction e with
  | atom s => cases s <;> rfl
  | seq l r ihl ihr =>
    rw [landings_seq, List.map_append, map_fst_moved, ihl, ihr, symbols, List.filterMap_append]
  | alt l r ihl ihr =>
    rw [landings_alt, List.map_append, map_fst_moved, map_fst_moved, ihl, ihr, symbols,
      List.filterMap_append]
  | star e ih => rw [landings_star, map_fst_moved, ih, symbols]

/-! ### The numbers of the landings -/

/-- The numbers that steps on characters lead to. -/
def landingNumbers (e : Expression) : List Nat :=
  (landings e.steps).map Prod.snd

/-- A character is landed on at the second vertex of its step. -/
theorem landingNumbers_atom {s : Symbol} :
    (atom s).landingNumbers = s.toList.map fun _ => 1 := by
  cases s <;> rfl

/-- A sequence lands in its left part, and then in its right part behind it. -/
theorem landingNumbers_seq :
    (seq l r).landingNumbers =
      l.landingNumbers ++ r.landingNumbers.map (· + l.vertexCount) := by
  rw [landingNumbers, landings_seq, List.map_append, map_snd_moved]
  rfl

/-- An alternative lands in its branches, behind the two ends. -/
theorem landingNumbers_alt :
    (alt l r).landingNumbers =
      l.landingNumbers.map (· + 2) ++ r.landingNumbers.map (· + (l.vertexCount + 2)) := by
  rw [landingNumbers, landings_alt, List.map_append, map_snd_moved, map_snd_moved]
  rfl

/-- A repetition lands in its body, behind the start. -/
theorem landingNumbers_star : (star e).landingNumbers = e.landingNumbers.map (· + 1) := by
  rw [landingNumbers, landings_star, map_snd_moved]
  rfl

/-- Landings are among the numbers of the blueprint. -/
theorem lt_of_mem_landingNumbers (h : n ∈ e.landingNumbers) : n < e.vertexCount := by
  obtain ⟨⟨c, m⟩, hm, rfl⟩ := List.mem_map.1 h
  obtain ⟨_, hstep⟩ := mem_landings.1 hm
  exact (lt_of_mem_steps hstep).2

/-- No step on a character leads to zero. -/
theorem zero_notMem_landingNumbers (e : Expression) : 0 ∉ e.landingNumbers := by
  have hmoved (numbers : List Nat) {k : Nat} (hk : 0 < k) : 0 ∉ numbers.map (· + k) := by
    intro h
    obtain ⟨m, _, hm⟩ := List.mem_map.1 h
    omega
  induction e with
  | atom s => simp [landingNumbers_atom]
  | seq l r ihl _ =>
    rw [landingNumbers_seq, List.mem_append, not_or]
    exact ⟨ihl, hmoved _ l.vertexCount_pos⟩
  | alt l r _ _ =>
    rw [landingNumbers_alt, List.mem_append, not_or]
    exact ⟨hmoved _ Nat.two_pos, hmoved _ (Nat.succ_pos _)⟩
  | star e _ =>
    rw [landingNumbers_star]
    exact hmoved _ Nat.one_pos

/-- Distinct numbers stay distinct when they are moved. -/
theorem nodup_moved {numbers : List Nat} (h : numbers.Nodup) : (numbers.map (· + offset)).Nodup :=
  h.map fun _ _ => Nat.add_right_cancel

/-- Numbers below a bound and numbers moved up beyond it are not repeated. -/
theorem nodup_append_moved {numbers numbers' : List Nat} (h : numbers.Nodup) (h' : numbers'.Nodup)
    (hlt : ∀ n ∈ numbers, n < offset) : (numbers ++ numbers'.map (· + offset)).Nodup := by
  refine List.Nodup.append h (nodup_moved h') fun n hn hn' => ?_
  obtain ⟨m, _, rfl⟩ := List.mem_map.1 hn'
  have := hlt _ hn
  omega

/-- No number is the landing of two atoms. -/
theorem nodup_landingNumbers (e : Expression) : e.landingNumbers.Nodup := by
  induction e with
  | atom s => cases s <;> simp [landingNumbers_atom]
  | seq l r ihl ihr =>
    rw [landingNumbers_seq]
    exact nodup_append_moved ihl ihr fun _ => lt_of_mem_landingNumbers
  | alt l r ihl ihr =>
    rw [landingNumbers_alt]
    refine nodup_append_moved (nodup_moved ihl) ihr fun n hn => ?_
    obtain ⟨m, hm, rfl⟩ := List.mem_map.1 hn
    exact Nat.add_lt_add_right (lt_of_mem_landingNumbers hm) 2
  | star e ih =>
    rw [landingNumbers_star]
    exact nodup_moved ih

/-- Every atom on a character has a step. -/
theorem exists_step_of_mem_characters (h : c ∈ e.characters) : ∃ n m, ⟨n, some c, m⟩ ∈ e.steps := by
  rw [← map_fst_landings, List.mem_map] at h
  obtain ⟨⟨_, m⟩, hm, rfl⟩ := h
  obtain ⟨n, hstep⟩ := mem_landings.1 hm
  exact ⟨n, m, hstep⟩

end Expression

/-! ### The landings of an automaton -/

namespace Automaton

open Expression

variable {A : Automaton} {e : Expression}

/-- What steps on characters enter is listed, with its character, and listed once; the start is not
among it. -/
structure HasLandings (A : Automaton) (found : List (Char × Vertex)) : Prop where
  mem_of_successor : ∀ q c r, r ∈ A.successors q (some c) → (c, r) ∈ found
  nodup : (found.map Prod.snd).Nodup
  start_notMem : A.start ∉ found.map Prod.snd

/-- The landings of an expression, as vertices. -/
def landingsOf (e : Expression) : List (Char × Vertex) :=
  (landings e.steps).map (Prod.map id UInt32.ofNat)

/-- The characters of the landings are those of the expression. -/
theorem map_fst_landingsOf (e : Expression) : (landingsOf e).map Prod.fst = e.characters := by
  rw [← map_fst_landings, landingsOf, List.map_map]
  rfl

/-- The vertices of the landings have the numbers of the blueprint. -/
theorem map_snd_landingsOf (e : Expression) :
    (landingsOf e).map Prod.snd = e.landingNumbers.map UInt32.ofNat := by
  rw [landingsOf, landingNumbers, List.map_map, List.map_map]
  rfl

/-- The steps of a constructed automaton on characters land where those of the blueprint do. -/
theorem Realizes.hasLandings (hA : A.Realizes e.vertexCount [e.exit] e.steps) :
    A.HasLandings (landingsOf e) := by
  have htoNat {n : Nat} (hn : n ∈ e.landingNumbers) : (UInt32.ofNat n).toNat = n :=
    UInt32.toNat_ofNat_of_lt' (Nat.lt_of_lt_of_le (lt_of_mem_landingNumbers hn) hA.size_le)
  refine ⟨fun q c r hr => ?mem, ?nodup, ?start⟩
  case mem =>
    have hstep := (hA.mem_successors_iff _ _ _).1 hr
    exact List.mem_map.2 ⟨(c, r.toNat), mem_landings.2 ⟨_, hstep⟩, by simp⟩
  case nodup =>
    rw [map_snd_landingsOf]
    refine e.nodup_landingNumbers.map_on fun m hm n hn heq => ?_
    rw [← htoNat hm, heq, htoNat hn]
  case start =>
    rw [map_snd_landingsOf, hA.start_eq, List.mem_map]
    intro h
    obtain ⟨m, hm, hzero⟩ := h
    have hm0 : m = 0 := (htoNat hm).symm.trans (congrArg UInt32.toNat hzero)
    exact e.zero_notMem_landingNumbers (hm0 ▸ hm)

/-- Elimination copies steps to other sources only, so they land where they did. -/
theorem HasLandings.eliminateEpsilon {found : List (Char × Vertex)} (hA : A.HasLandings found) :
    A.eliminateEpsilon.HasLandings found where
  mem_of_successor q c r hr := by
    obtain ⟨m, _, hr⟩ := mem_successors_eliminateEpsilon.1 hr
    exact hA.mem_of_successor m c r hr
  nodup := hA.nodup
  start_notMem := by
    rw [start_eliminateEpsilon]
    exact hA.start_notMem

end Automaton

end Recognizer
