import Recognizer.Automaton.Path
import Recognizer.Proofs.Blueprint
import Recognizer.Proofs.Import

/-!
# The construction follows the blueprint

An automaton realizes a blueprint if its vertices are the numbers below the size, zero is its start,
and its finishes and transitions are the exits and the steps of the blueprint. Every operation that
the construction uses is described by what it does to a realized blueprint, so the automaton of an
expression realizes the blueprint of the expression as soon as the identifiers suffice
(`toAutomaton_realizes`).

The paths of an automaton are then the walks of its blueprint, and the words that it accepts those
of the expression.
-/

namespace Recognizer

open Std

namespace Automaton

/-- The vertices are the numbers below `size`, and the finishes and transitions are as listed. -/
structure Realizes (A : Automaton) (size : Nat) (exits : List Nat) (steps : List (Transition Nat)) :
    Prop where
  wellFormed : A.WellFormed
  start_eq : A.start = 0
  contains_iff : ∀ q, A.contains q = true ↔ q.toNat < size
  isFinish_iff : ∀ q, A.isFinish q = true ↔ q.toNat ∈ exits
  mem_successors_iff : ∀ q s r, r ∈ A.successors q s ↔ ⟨q.toNat, s, r.toNat⟩ ∈ steps
  size_le : size ≤ UInt32.size
  exit_lt : ∀ x ∈ exits, x < size

variable {A B : Automaton} {q r offset : Vertex} {s : Symbol} {m n x : Nat} {w : List Char}
variable {exits exits' : List Nat} {steps steps' : List (Transition Nat)}

/-- A number within the range of identifiers is that of a vertex. -/
theorem exists_toNat_eq (h : n < UInt32.size) : ∃ q : Vertex, q.toNat = n :=
  ⟨UInt32.ofNat n, UInt32.toNat_ofNat_of_lt' h⟩

/-- Shifting the vertices with some numbers gives the vertices with the numbers shifted. -/
theorem exists_add_eq_iff {P : Nat → Prop} (hP : ∀ a, P a → a + offset.toNat < UInt32.size) :
    (∃ p : Vertex, P p.toNat ∧ p + offset = q) ↔ ∃ a, P a ∧ q.toNat = a + offset.toNat := by
  apply Iff.intro
  · intro h
    obtain ⟨p, hp, rfl⟩ := h
    exact ⟨p.toNat, hp, Vertex.toNat_add (hP _ hp)⟩
  · intro h
    obtain ⟨a, ha, hq⟩ := h
    obtain ⟨p, rfl⟩ := exists_toNat_eq (Nat.lt_of_le_of_lt (Nat.le_add_right a _) (hP a ha))
    exact ⟨p, ha, UInt32.toNat_inj.1 ((Vertex.toNat_add (hP _ ha)).trans hq.symm)⟩

namespace Realizes

/-- Only the members of the lists matter. -/
theorem congr (hA : A.Realizes n exits steps) (hexits : ∀ x, x ∈ exits ↔ x ∈ exits')
    (hsteps : ∀ t, t ∈ steps ↔ t ∈ steps') : A.Realizes n exits' steps' where
  wellFormed := hA.wellFormed
  start_eq := hA.start_eq
  contains_iff := hA.contains_iff
  isFinish_iff q := (hA.isFinish_iff q).trans (hexits _)
  mem_successors_iff q s r := (hA.mem_successors_iff q s r).trans (hsteps _)
  size_le := hA.size_le
  exit_lt x hx := hA.exit_lt x ((hexits x).2 hx)

/-- What realizes a blueprint has a vertex. -/
theorem size_pos (hA : A.Realizes n exits steps) : 0 < n :=
  Nat.lt_of_le_of_lt (Nat.zero_le _) ((hA.contains_iff _).1 hA.wellFormed.contains_start)

/-- The greatest vertex is the number before the size. -/
theorem toNat_greatestVertex (hA : A.Realizes n exits steps) :
    A.greatestVertex.toNat + 1 = n := by
  have hle : A.greatestVertex.toNat < n :=
    (hA.contains_iff _).1 (contains_greatestVertex hA.wellFormed.contains_start)
  have hpos := hA.size_pos
  have hsize := hA.size_le
  obtain ⟨last, hlast⟩ := exists_toNat_eq (n := n - 1) (by omega)
  have hge := toNat_le_greatestVertex ((hA.contains_iff last).2 (by omega))
  omega

/-! ### The operations -/

/-- The automaton with one vertex has neither exits nor steps. -/
theorem singleton : (singleton 0).Realizes 1 [] [] where
  wellFormed := WellFormed.singleton 0
  start_eq := rfl
  contains_iff q := by
    rw [contains_singleton, ← UInt32.toNat_inj, Nat.lt_one_iff]
    rfl
  isFinish_iff q := by simp
  mem_successors_iff q s r := by simp
  size_le := by decide
  exit_lt := by simp

/-- The next number becomes a vertex. -/
theorem addFreshVertex (hA : A.Realizes n exits steps) (hfits : n < UInt32.size) :
    ∃ q B, A.addFreshVertex = .ok (q, B) ∧ q.toNat = n ∧ B.Realizes (n + 1) exits steps := by
  have hgreatest := hA.toNat_greatestVertex
  have hone : A.greatestVertex.toNat + (1 : Vertex).toNat < UInt32.size := by
    rw [UInt32.toNat_one]
    omega
  have hq : (A.greatestVertex + 1).toNat = n := (Vertex.toNat_add hone).trans hgreatest
  have hfresh : A.freshIdentifier = .ok (A.greatestVertex + 1) := Vertex.shift_eq_ok hone
  refine ⟨A.greatestVertex + 1, A.insertVertex (A.greatestVertex + 1), ?_, hq, ?_⟩
  · simp [Automaton.addFreshVertex, hfresh, bind, Except.bind, pure, Except.pure]
  · refine ⟨hA.wellFormed.insertVertex _, hA.start_eq, fun r => ?_, hA.isFinish_iff,
      fun r s p => ?_, hfits, fun x hx => Nat.lt_succ_of_lt (hA.exit_lt x hx)⟩
    · rw [contains_insertVertex, hA.contains_iff, ← UInt32.toNat_inj, hq]
      omega
    · rw [successors_insertVertex]
      exact hA.mem_successors_iff r s p

/-- A vertex becomes an exit. -/
theorem markFinish (hA : A.Realizes n exits steps) (hq : q.toNat < n) :
    ∃ isNew B, A.markFinish q = .ok (isNew, B) ∧ B.Realizes n (q.toNat :: exits) steps := by
  have hcontains := (hA.contains_iff q).2 hq
  refine ⟨!A.isFinish q, A.insertFinish q, if_pos hcontains, hA.wellFormed.insertFinish hcontains,
    hA.start_eq, hA.contains_iff, fun r => ?_, hA.mem_successors_iff, hA.size_le, ?_⟩
  · rw [isFinish_insertFinish, hA.isFinish_iff, List.mem_cons, UInt32.toNat_inj]
  · exact List.forall_mem_cons.2 ⟨hq, hA.exit_lt⟩

/-- An exit becomes an ordinary vertex. -/
theorem unmarkFinish (hA : A.Realizes n exits steps) (hq : q.toNat ∈ exits) :
    ∃ B, A.unmarkFinish q = .ok B ∧ B.Realizes n (exits.filter (· != q.toNat)) steps := by
  have hfinish (r : Vertex) : (A.finishes.erase q).contains r = true ↔
      r.toNat ∈ exits.filter (· != q.toNat) := by
    have hr := hA.isFinish_iff r
    rw [isFinish] at hr
    rw [ExtTreeSet.contains_iff_mem] at hr ⊢
    rw [ExtTreeSet.mem_erase, List.mem_filter, hr, bne_iff_ne, ne_eq, ne_eq, UInt32.toNat_inj,
      Std.compare_eq_iff_eq, eq_comm (a := q), and_comm]
  refine ⟨_, if_pos ((hA.isFinish_iff q).2 hq), ?_⟩
  refine ⟨⟨hA.wellFormed.contains_start, fun r hr => ?_, hA.wellFormed.contains_target,
      hA.wellFormed.ne_empty⟩, hA.start_eq, hA.contains_iff, hfinish, hA.mem_successors_iff,
    hA.size_le, fun x hx => hA.exit_lt x (List.mem_filter.1 hx).1⟩
  exact (hA.contains_iff r).2 (hA.exit_lt _ (List.mem_filter.1 ((hfinish r).1 hr)).1)

/-- A step between two vertices is added. -/
theorem connect (hA : A.Realizes n exits steps) (hq : q.toNat < n) (hr : r.toNat < n) (s : Symbol) :
    ∃ isNew B, A.connect ⟨q, s, r⟩ = .ok (isNew, B) ∧
      B.Realizes n exits (⟨q.toNat, s, r.toNat⟩ :: steps) := by
  have hsource := (hA.contains_iff q).2 hq
  have htarget := (hA.contains_iff r).2 hr
  refine ⟨!(A.successors q s).contains r, A.insertTransition ⟨q, s, r⟩, ?_, ?_⟩
  · simp [Automaton.connect, hsource, htarget]
  · refine ⟨hA.wellFormed.insertTransition hsource htarget, hA.start_eq, fun p => ?_,
      hA.isFinish_iff, fun p s' p' => ?_, hA.size_le, hA.exit_lt⟩
    · rw [contains_insertTransition, hA.contains_iff]
      refine or_iff_right_of_imp fun hp => ?_
      rw [hp]
      exact hq
    · rw [mem_successors_insertTransition, hA.mem_successors_iff, List.mem_cons, eq_comm]
      simp only [Transition.mk.injEq, UInt32.toNat_inj]

/-- A silent step between two vertices is added. -/
theorem connectSilently (hA : A.Realizes n exits steps) (hq : q.toNat < n) (hr : r.toNat < n) :
    ∃ B, A.connectSilently q r = .ok B ∧
      B.Realizes n exits (⟨q.toNat, none, r.toNat⟩ :: steps) := by
  obtain ⟨isNew, B, hconnect, hB⟩ := hA.connect hq hr none
  refine ⟨B, ?_, hB⟩
  rw [Automaton.connectSilently, hconnect]
  rfl

/-- The only exit is found. -/
theorem uniqueFinish (hA : A.Realizes n [x] steps) :
    ∃ q, A.uniqueFinish = .ok q ∧ q.toNat = x := by
  obtain ⟨q, hq⟩ := exists_toNat_eq (Nat.lt_of_lt_of_le (hA.exit_lt x List.mem_cons_self) hA.size_le)
  have hmem (r : Vertex) : r ∈ A.finishes.toList ↔ r ∈ [q] := by
    have hr := hA.isFinish_iff r
    rw [isFinish, ExtTreeSet.contains_iff_mem] at hr
    rw [ExtTreeSet.mem_toList, hr, List.mem_singleton, List.mem_singleton, ← hq, UInt32.toNat_inj]
  have hperm := (List.perm_ext_iff_of_nodup A.finishes.nodup_toList (List.nodup_singleton q)).2 hmem
  refine ⟨q, ?_, hq⟩
  rw [Automaton.uniqueFinish, List.perm_singleton.1 hperm]

/-- An import moves a blueprint up to the numbers after those of the receiver. -/
theorem importUnder (hA : A.Realizes m exits steps) (hB : B.Realizes n exits' steps')
    (hfits : m + n ≤ UInt32.size) :
    ∃ offset C, A.importUnder B .disjoint = .ok (offset, C) ∧ offset.toNat = m ∧
      C.Realizes (m + n) (exits ++ exits'.map (· + m))
        (steps ++ Expression.moveUp m steps') := by
  have hm := hA.toNat_greatestVertex
  have hn := hB.toNat_greatestVertex
  have hfresh : A.greatestVertex.toNat + 1 < UInt32.size := by omega
  have hoffset : (A.greatestVertex + 1).toNat = m := (Vertex.toNat_add hfresh).trans hm
  refine ⟨_, _, importUnder_disjoint_eq_ok hfresh (by omega), hoffset, ?_⟩
  generalize A.greatestVertex + 1 = offset at hoffset
  subst hoffset
  have hrange (P : Nat → Prop) (hP : ∀ a, P a → a < n) (q : Vertex) :
      (∃ p : Vertex, P p.toNat ∧ p + offset = q) ↔ ∃ a, P a ∧ q.toNat = a + offset.toNat := by
    refine exists_add_eq_iff fun a ha => ?_
    have := hP a ha
    omega
  refine ⟨hA.wellFormed.importAlong hB.wellFormed _, hA.start_eq, fun q => ?_, fun q => ?_,
    fun q s r => ?_, hfits, fun x hx => ?_⟩
  · rw [contains_importAlong, hA.contains_iff]
    simp only [hB.contains_iff]
    rw [hrange (· < n) (fun _ ha => ha)]
    apply Iff.intro
    · intro h
      rcases h with h | ⟨a, ha, hq⟩
      · omega
      · omega
    · intro h
      rcases Nat.lt_or_ge q.toNat offset.toNat with h' | h'
      · exact Or.inl h'
      · exact Or.inr ⟨q.toNat - offset.toNat, by omega, by omega⟩
  · rw [isFinish_importAlong, hA.isFinish_iff, List.mem_append, List.mem_map]
    simp only [hB.isFinish_iff]
    rw [hrange (· ∈ exits') hB.exit_lt]
    simp only [eq_comm]
  · rw [mem_successors_importAlong, hA.mem_successors_iff, List.mem_append, Expression.mem_moveUp]
    apply or_congr_right
    apply Iff.intro
    · intro h
      obtain ⟨p, p', hp, rfl, rfl⟩ := h
      have hsource := (hB.contains_iff p).1 (contains_of_mem_successors hp)
      have htarget := (hB.contains_iff p').1 (hB.wellFormed.contains_target _ _ _ hp)
      refine ⟨_, (hB.mem_successors_iff p s p').1 hp, ?_⟩
      rw [Vertex.toNat_add (by omega), Vertex.toNat_add (by omega)]
    · intro h
      obtain ⟨⟨a, s', b⟩, hstep, heq⟩ := h
      simp only [Transition.mk.injEq] at heq
      obtain ⟨hq, rfl, hr⟩ := heq
      have hqlt : a + offset.toNat < UInt32.size := hq ▸ q.toNat_lt
      have hrlt : b + offset.toNat < UInt32.size := hr ▸ r.toNat_lt
      obtain ⟨p, rfl⟩ := exists_toNat_eq (Nat.lt_of_le_of_lt (Nat.le_add_right a _) hqlt)
      obtain ⟨p', rfl⟩ := exists_toNat_eq (Nat.lt_of_le_of_lt (Nat.le_add_right b _) hrlt)
      refine ⟨p, p', (hB.mem_successors_iff p s p').2 hstep, ?_, ?_⟩
      · rw [← UInt32.toNat_inj, hq, Vertex.toNat_add hqlt]
      · rw [← UInt32.toNat_inj, hr, Vertex.toNat_add hrlt]
  · rcases List.mem_append.1 hx with hx | hx
    · exact Nat.lt_of_lt_of_le (hA.exit_lt x hx) (Nat.le_add_right _ _)
    · obtain ⟨y, hy, rfl⟩ := List.mem_map.1 hx
      have := hB.exit_lt y hy
      omega

/-- The imported start is found where the numbers of the receiver end. -/
theorem shift_start (hB : B.Realizes n exits steps) (offset : Vertex) :
    Vertex.shift B.start offset = .ok offset := by
  have hfits : (0 : Vertex).toNat + offset.toNat < UInt32.size := by
    rw [UInt32.toNat_zero, Nat.zero_add]
    exact offset.toNat_lt
  rw [hB.start_eq, Vertex.shift_eq_ok hfits, UInt32.zero_add]

/-! ### The combinations -/

/-- Two numbers, of which the second is the exit. -/
theorem twoEnds : ∃ q A, twoEnds = .ok (q, A) ∧ q.toNat = 1 ∧ A.Realizes 2 [1] [] := by
  obtain ⟨q, A, hfresh, hq, hA⟩ := singleton.addFreshVertex (by decide)
  obtain ⟨_, B, hmark, hB⟩ := hA.markFinish (q := q) (by omega)
  refine ⟨q, B, ?_, hq, hq ▸ hB⟩
  simp [Automaton.twoEnds, hfresh, hmark, bind, Except.bind, pure, Except.pure]

/-- A single step. -/
theorem ofSymbol (s : Symbol) : ∃ A, ofSymbol s = .ok A ∧ A.Realizes 2 [1] [⟨0, s, 1⟩] := by
  obtain ⟨q, A, htwo, hq, hA⟩ := twoEnds
  have hstart : A.start.toNat = 0 := congrArg UInt32.toNat hA.start_eq
  obtain ⟨_, B, hconnect, hB⟩ := hA.connect (q := A.start) (r := q) (by omega) (by omega) s
  rw [hstart, hq] at hB
  refine ⟨B, ?_, hB⟩
  simp [Automaton.ofSymbol, htwo, hconnect, bind, Except.bind, pure, Except.pure]

/-- One blueprint after another, with a silent step from the exit of the first. -/
theorem followedBy {y : Nat} (hA : A.Realizes m [x] steps) (hB : B.Realizes n [y] steps')
    (hfits : m + n ≤ UInt32.size) :
    ∃ C, A.followedBy B = .ok C ∧
      C.Realizes (m + n) [y + m] (steps ++ ⟨x, none, m⟩ :: Expression.moveUp m steps') := by
  have hx := hA.exit_lt x List.mem_cons_self
  have hn := hB.size_pos
  obtain ⟨finish, hfinish, rfl⟩ := hA.uniqueFinish
  obtain ⟨offset, joined, himport, hoffset, hjoined⟩ := hA.importUnder hB hfits
  obtain ⟨opened, hunmark, hopened⟩ := hjoined.unmarkFinish (q := finish) List.mem_cons_self
  obtain ⟨C, hlink, hC⟩ := hopened.connectSilently (q := finish) (r := offset)
    (by omega) (by omega)
  refine ⟨C, ?_, hC.congr (fun a => ?_) fun t => ?_⟩
  · simp [Automaton.followedBy, hfinish, himport, hunmark, hB.shift_start, hlink, bind, Except.bind]
  · simp only [List.cons_append, List.nil_append, List.map_cons, List.map_nil, List.mem_filter,
      List.mem_cons, List.not_mem_nil, or_false, bne_iff_ne]
    omega
  · rw [hoffset, List.mem_append, List.mem_cons, List.mem_cons, List.mem_append, or_left_comm]

/-- A detour through another blueprint, from zero to a number of the receiver. -/
theorem addBranch {y : Nat} (hA : A.Realizes m exits steps) (hB : B.Realizes n [y] steps')
    (hq : q.toNat < m) (hfits : m + n ≤ UInt32.size) :
    ∃ C, A.addBranch B q = .ok C ∧
      C.Realizes (m + n) exits (steps ++ Expression.detour m y q.toNat steps') := by
  have hy := hB.exit_lt y List.mem_cons_self
  obtain ⟨finish, hfinish, rfl⟩ := hB.uniqueFinish
  obtain ⟨offset, joined, himport, rfl, hjoined⟩ := hA.importUnder hB hfits
  have hstart : A.start.toNat = 0 := congrArg UInt32.toNat hA.start_eq
  obtain ⟨entered, hlink, hentered⟩ := hjoined.connectSilently (q := A.start) (r := offset)
    (by omega) (by omega)
  have hlast : finish.toNat + offset.toNat < UInt32.size := by omega
  have hshift := Vertex.shift_eq_ok hlast
  have htoNat := Vertex.toNat_add hlast
  obtain ⟨opened, hunmark, hopened⟩ := hentered.unmarkFinish (q := finish + offset)
    (by simp [htoNat])
  obtain ⟨C, hleave, hC⟩ := hopened.connectSilently (q := finish + offset) (r := q)
    (by omega) (by omega)
  refine ⟨C, ?_, hC.congr (fun a => ?_) fun t => ?_⟩
  · simp [Automaton.addBranch, hfinish, himport, hB.shift_start, hlink, hshift, hunmark, hleave,
      bind, Except.bind]
  · simp only [List.map_cons, List.map_nil, List.mem_filter, List.mem_append, List.mem_cons,
      List.not_mem_nil, or_false, bne_iff_ne, htoNat]
    refine ⟨fun h => h.1.resolve_right h.2, fun h => ⟨Or.inl h, ?_⟩⟩
    have := hA.exit_lt a h
    omega
  · rw [htoNat, hstart]
    simp only [List.mem_append, List.mem_cons, Expression.mem_detour]
    grind

/-! ### Paths and walks -/

/-- The paths are the walks of the blueprint. -/
theorem path_iff_walk {p : Vertex} (hA : A.Realizes n exits steps)
    (hsteps : ∀ t ∈ steps, t.target < n) : A.Path q w p ↔ Walk steps q.toNat w p.toNat := by
  apply Iff.intro
  · intro h
    induction h with
    | nil q => exact Walk.nil _
    | step first _ ih => exact Walk.step ((hA.mem_successors_iff _ _ _).1 first) ih
  · intro h
    generalize ha : q.toNat = a at h
    generalize hb : p.toNat = b at h
    induction h generalizing q with
    | nil =>
      rw [UInt32.toNat_inj.1 (ha.trans hb.symm)]
      exact Path.nil p
    | @step _ middle _ s _ first _ ih =>
      have hmiddle : middle < UInt32.size := Nat.lt_of_lt_of_le (hsteps _ first) hA.size_le
      obtain ⟨r, rfl⟩ := exists_toNat_eq hmiddle
      rw [← ha] at first
      exact Path.step ((hA.mem_successors_iff q s r).2 first) (ih rfl hb)

/-- The accepted words are those of the walks from zero to the exit. -/
theorem accepts_iff_walk (hA : A.Realizes n [x] steps) (hsteps : ∀ t ∈ steps, t.target < n) :
    A.Accepts w ↔ Walk steps 0 w x := by
  have hstart : A.start.toNat = 0 := congrArg UInt32.toNat hA.start_eq
  apply Iff.intro
  · intro h
    obtain ⟨p, hp, hpath⟩ := h
    have hx := List.mem_singleton.1 ((hA.isFinish_iff p).1 hp)
    rw [← hx, ← hstart]
    exact (hA.path_iff_walk hsteps).1 hpath
  · intro h
    obtain ⟨p, rfl⟩ :=
      exists_toNat_eq (Nat.lt_of_lt_of_le (hA.exit_lt x List.mem_cons_self) hA.size_le)
    rw [← hstart] at h
    exact ⟨p, (hA.isFinish_iff p).2 List.mem_cons_self, (hA.path_iff_walk hsteps).2 h⟩

end Realizes

end Automaton

namespace Expression

/-- As long as the identifiers suffice, the construction succeeds and follows the blueprint. -/
theorem toAutomaton_realizes (e : Expression) (h : e.vertexCount ≤ UInt32.size) :
    ∃ A, e.toAutomaton = .ok A ∧ A.Realizes e.vertexCount [e.exit] e.steps := by
  induction e with
  | atom s => exact Automaton.Realizes.ofSymbol s
  | seq l r ihl ihr =>
    simp only [vertexCount] at h
    obtain ⟨A, hl, hA⟩ := ihl (by omega)
    obtain ⟨B, hr, hB⟩ := ihr (by omega)
    obtain ⟨C, hjoin, hC⟩ := hA.followedBy hB h
    refine ⟨C, ?_, hC⟩
    simp [toAutomaton, hl, hr, hjoin, bind, Except.bind]
  | alt l r ihl ihr =>
    simp only [vertexCount] at h
    obtain ⟨A, hl, hA⟩ := ihl (by omega)
    obtain ⟨B, hr, hB⟩ := ihr (by omega)
    obtain ⟨finish, ends, htwo, hfinish, hends⟩ := Automaton.Realizes.twoEnds
    obtain ⟨first, haddl, hfirst⟩ := hends.addBranch hA (q := finish) (by omega) (by omega)
    obtain ⟨C, haddr, hC⟩ := hfirst.addBranch hB (q := finish) (by omega) (by omega)
    refine ⟨C, ?_, ?_⟩
    · simp [toAutomaton, htwo, hl, haddl, hr, haddr, bind, Except.bind]
    · rw [hfinish, List.nil_append, Nat.add_comm 2, Nat.add_right_comm] at hC
      exact hC
  | star e ih =>
    simp only [vertexCount] at h
    obtain ⟨B, he, hB⟩ := ih (by omega)
    obtain ⟨_, A, hmark, hA⟩ := Automaton.Realizes.singleton.markFinish (q := 0) (by decide)
    have hstart : A.start.toNat = 0 := congrArg UInt32.toNat hA.start_eq
    obtain ⟨C, hadd, hC⟩ := hA.addBranch hB (q := A.start) (by omega) (by omega)
    refine ⟨C, ?_, ?_⟩
    · simp [toAutomaton, hmark, he, hadd, bind, Except.bind]
    · rw [hstart, List.nil_append, Nat.add_comm 1] at hC
      exact hC

/-- The constructed automaton accepts the words that the expression matches. -/
theorem accepts_toAutomaton_iff {e : Expression} {A : Automaton}
    (hA : A.Realizes e.vertexCount [e.exit] e.steps) {w : List Char} :
    A.Accepts w ↔ w ∈ e.language := by
  rw [hA.accepts_iff_walk fun _ ht => (lt_of_mem_steps ht).2, walk_iff_mem_language]

end Expression

end Recognizer
