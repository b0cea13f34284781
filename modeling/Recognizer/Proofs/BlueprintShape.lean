import Mathlib.Data.List.Nodup
import Recognizer.Proofs.Blueprint

/-!
# The shape of a blueprint

A blueprint lists every step once, as many as the expression counts (`nodup_steps`, `length_steps`),
and its symbols are those of the expression (`forall_mem_steps`). Nothing in it is superfluous: a
walk leads from zero to every number (`exists_walk_to`), and from there to the exit
(`exists_walk_to_exit`).
-/

namespace Recognizer.Expression

variable {e l r : Expression} {t : Transition Nat} {offset exit into n q : Nat}
variable {steps : List (Transition Nat)}

/-! ### Counting the steps -/

/-- Moving keeps the number of steps. -/
theorem length_moveUp : (moveUp offset steps).length = steps.length :=
  List.length_map _

/-- A detour has two steps more. -/
theorem length_detour : (detour offset exit into steps).length = steps.length + 2 := by
  rw [detour, List.length_cons, List.length_cons, length_moveUp]

/-- The blueprint has as many steps as the expression counts. -/
theorem length_steps (e : Expression) : e.steps.length = e.transitionCount := by
  induction e with
  | atom s => rfl
  | seq l r ihl ihr =>
    rw [Expression.steps, List.length_append, List.length_cons, length_moveUp, ihl, ihr,
      transitionCount, Nat.add_assoc]
  | alt l r ihl ihr =>
    rw [Expression.steps, List.length_append, length_detour, length_detour, ihl, ihr,
      transitionCount]
    omega
  | star e ih => rw [Expression.steps, length_detour, ih, transitionCount]

/-! ### No step is listed twice -/

/-- What is moved up lies above the offset. -/
theorem le_of_mem_moveUp (h : t ∈ moveUp offset steps) : offset ≤ t.source ∧ offset ≤ t.target := by
  obtain ⟨t', _, rfl⟩ := mem_moveUp.1 h
  exact ⟨Nat.le_add_left _ _, Nat.le_add_left _ _⟩

/-- Distinct steps stay distinct when they are moved. -/
theorem nodup_moveUp (h : steps.Nodup) : (moveUp offset steps).Nodup := by
  refine h.map fun t t' heq => ?_
  obtain ⟨source, symbol, target⟩ := t
  obtain ⟨source', symbol', target'⟩ := t'
  simpa [Transition.rename] using heq

/-- All steps of a detour but the way in lie above the offset. -/
theorem eq_or_le_of_mem_detour (h : t ∈ detour offset exit into steps) :
    t = ⟨0, none, offset⟩ ∨ offset ≤ t.source := by
  rcases mem_detour.1 h with rfl | rfl | h
  · exact Or.inl rfl
  · exact Or.inr (Nat.le_add_left _ _)
  · exact Or.inr (le_of_mem_moveUp h).1

/-- The steps of a detour leave the numbers of its part, moved up, and zero. -/
theorem source_lt_of_mem_detour (hexit : exit < n) (hsteps : ∀ t ∈ steps, t.source < n)
    (h : t ∈ detour offset exit into steps) : t.source < n + offset := by
  rcases mem_detour.1 h with rfl | rfl | h
  · exact Nat.lt_of_le_of_lt (Nat.zero_le exit) (Nat.lt_add_right offset hexit)
  · exact Nat.add_lt_add_right hexit offset
  · obtain ⟨t', ht', rfl⟩ := mem_moveUp.1 h
    exact Nat.add_lt_add_right (hsteps t' ht') offset

/-- A detour that leads back below its part lists no step twice. -/
theorem nodup_detour (hsteps : steps.Nodup) (hinto : into < offset) :
    (detour offset exit into steps).Nodup := by
  rw [detour, List.nodup_cons, List.nodup_cons, List.mem_cons, not_or]
  refine ⟨⟨?_, fun h => ?_⟩, fun h => ?_, nodup_moveUp hsteps⟩
  · intro h
    have hsource := congrArg Transition.source h
    dsimp only at hsource
    omega
  · have hsource := (le_of_mem_moveUp h).1
    dsimp only at hsource
    omega
  · have htarget := (le_of_mem_moveUp h).2
    dsimp only at htarget
    omega

/-- No step is listed twice. -/
theorem nodup_steps (e : Expression) : e.steps.Nodup := by
  induction e with
  | atom s => exact List.nodup_singleton _
  | seq l r ihl ihr =>
    have hexit := l.exit_lt
    rw [Expression.steps, List.nodup_append, List.nodup_cons]
    refine ⟨ihl, ⟨fun h => ?_, nodup_moveUp ihr⟩, fun t ht t' ht' heq => ?_⟩
    · have hsource := (le_of_mem_moveUp h).1
      dsimp only at hsource
      omega
    · subst heq
      have hlt := lt_of_mem_steps ht
      rcases List.mem_cons.1 ht' with rfl | ht'
      · exact Nat.lt_irrefl _ hlt.2
      · exact Nat.not_lt.2 (le_of_mem_moveUp ht').1 hlt.1
  | alt l r ihl ihr =>
    have hexit := l.exit_lt
    rw [Expression.steps, List.nodup_append]
    refine ⟨nodup_detour ihl (by omega), nodup_detour ihr (by omega), fun t ht t' ht' heq => ?_⟩
    -- The sources keep the two parts apart, and the targets keep apart the two ways in.
    subst heq
    have hlt := source_lt_of_mem_detour hexit (fun t ht => (lt_of_mem_steps ht).1) ht
    rcases eq_or_le_of_mem_detour ht' with rfl | hright
    · rcases eq_or_le_of_mem_detour ht with hleft | hleft
      · have htarget := congrArg Transition.target hleft
        have hpos := l.vertexCount_pos
        dsimp only at htarget
        omega
      · exact Nat.not_succ_le_zero _ hleft
    · omega
  | star e ih => exact nodup_detour ih Nat.one_pos

/-! ### The symbols of the steps -/

section Symbols

variable {P : Symbol → Prop}

/-- Moving keeps the symbols of steps. -/
theorem forall_mem_moveUp (h : ∀ t ∈ steps, P t.symbol) : ∀ t ∈ moveUp offset steps, P t.symbol := by
  intro t ht
  obtain ⟨t', ht', rfl⟩ := mem_moveUp.1 ht
  exact h t' ht'

/-- A detour adds silent steps only. -/
theorem forall_mem_detour (hsilent : P none) (h : ∀ t ∈ steps, P t.symbol) :
    ∀ t ∈ detour offset exit into steps, P t.symbol := by
  intro t ht
  rcases mem_detour.1 ht with rfl | rfl | ht
  · exact hsilent
  · exact hsilent
  · exact forall_mem_moveUp h t ht

/-- What is true of silence and of the symbols of the expression is true of all symbols of steps. -/
theorem forall_mem_steps (hsilent : P none) (h : ∀ s ∈ e.symbols, P s) :
    ∀ t ∈ e.steps, P t.symbol := by
  induction e with
  | atom s => simpa [Expression.steps, symbols] using h
  | seq l r ihl ihr =>
    rw [symbols, List.forall_mem_append] at h
    rw [Expression.steps, List.forall_mem_append, List.forall_mem_cons]
    exact ⟨ihl h.1, hsilent, forall_mem_moveUp (ihr h.2)⟩
  | alt l r ihl ihr =>
    rw [symbols, List.forall_mem_append] at h
    rw [Expression.steps, List.forall_mem_append]
    exact ⟨forall_mem_detour hsilent (ihl h.1), forall_mem_detour hsilent (ihr h.2)⟩
  | star e ih => exact forall_mem_detour hsilent (ih h)

end Symbols

/-! ### Every number is on the way -/

/-- The numbers of an alternation are its two ends and those of its parts. -/
theorem eq_zero_or_one_or_add_two (q : Nat) : q = 0 ∨ q = 1 ∨ ∃ m, q = m + 2 := by
  rcases Nat.lt_or_ge q 2 with hlt | hge
  · omega
  · exact Or.inr (Or.inr (Nat.exists_eq_add_of_le' hge))

/-- From every number something can be read on the way to the exit. -/
theorem exists_mem_residual (hq : q < e.vertexCount) : ∃ w, w ∈ e.residual q := by
  induction e generalizing q with
  | atom s =>
    cases q with
    | zero => exact ⟨s.toList, rfl⟩
    | succ _ => exact ⟨[], rfl⟩
  | seq l r ihl ihr =>
    by_cases hleft : q < l.vertexCount
    · obtain ⟨u, hu⟩ := ihl hleft
      obtain ⟨v, hv⟩ := ihr r.vertexCount_pos
      rw [residual_zero] at hv
      rw [residual_seq_left hleft]
      exact ⟨u ++ v, Language.append_mem_mul hu hv⟩
    · obtain ⟨m, rfl⟩ := Nat.exists_eq_add_of_le' (Nat.le_of_not_lt hleft)
      rw [residual_seq_right]
      simp only [vertexCount] at hq
      exact ihr (by omega)
  | alt l r ihl ihr =>
    obtain rfl | rfl | ⟨m, rfl⟩ := eq_zero_or_one_or_add_two q
    · obtain ⟨u, hu⟩ := ihl l.vertexCount_pos
      rw [residual_zero] at hu
      exact ⟨u, Or.inl hu⟩
    · exact ⟨[], rfl⟩
    · simp only [vertexCount] at hq
      by_cases hm : m < l.vertexCount
      · rw [residual_alt_left hm]
        exact ihl hm
      · obtain ⟨m, rfl⟩ := Nat.exists_eq_add_of_le' (Nat.le_of_not_lt hm)
        rw [Nat.add_assoc, residual_alt_right]
        exact ihr (by omega)
  | star e ih =>
    cases q with
    | zero => exact ⟨[], Language.nil_mem_kstar _⟩
    | succ m =>
      obtain ⟨u, hu⟩ := ih (Nat.lt_of_succ_lt_succ hq)
      rw [residual_star_succ]
      exact ⟨u ++ [], Language.append_mem_mul hu (Language.nil_mem_kstar _)⟩

/-- From every number there is a walk to the exit. -/
theorem exists_walk_to_exit (hq : q < e.vertexCount) : ∃ w, Walk e.steps q w e.exit := by
  obtain ⟨w, hw⟩ := exists_mem_residual hq
  exact ⟨w, walk_of_mem_residual hq hw⟩

/-- A detour leads from zero to everything that its part leads to. -/
theorem walk_into_detour {part whole : List (Transition Nat)} {w : List Char}
    (hsub : ∀ t ∈ detour offset exit into part, t ∈ whole) (h : Walk part 0 w q) :
    Walk whole 0 w (q + offset) := by
  have henter : ⟨0, none, 0 + offset⟩ ∈ whole :=
    hsub _ (mem_detour.2 (Or.inl (by rw [Nat.zero_add])))
  have hpart : ∀ t ∈ moveUp offset part, t ∈ whole :=
    fun t ht => hsub t (mem_detour.2 (Or.inr (Or.inr ht)))
  simpa using Walk.step henter (walk_moveUp hpart h)

/-- From zero there is a walk to every number. -/
theorem exists_walk_to (hq : q < e.vertexCount) : ∃ w, Walk e.steps 0 w q := by
  induction e generalizing q with
  | atom s =>
    obtain rfl | rfl : q = 0 ∨ q = 1 := by
      simp only [vertexCount] at hq
      omega
    · exact ⟨[], Walk.nil 0⟩
    · exact ⟨s.toList, Walk.single List.mem_cons_self⟩
  | seq l r ihl ihr =>
    have hfirst : ∀ t ∈ l.steps, t ∈ (seq l r).steps := fun t ht => List.mem_append_left _ ht
    by_cases hleft : q < l.vertexCount
    · obtain ⟨u, hu⟩ := ihl hleft
      exact ⟨u, hu.mono hfirst⟩
    · have hlink : ⟨l.exit, none, 0 + l.vertexCount⟩ ∈ (seq l r).steps := by
        rw [Nat.zero_add]
        exact List.mem_append_right _ List.mem_cons_self
      have hsecond : ∀ t ∈ moveUp l.vertexCount r.steps, t ∈ (seq l r).steps :=
        fun t ht => List.mem_append_right _ (List.mem_cons_of_mem _ ht)
      obtain ⟨m, rfl⟩ := Nat.exists_eq_add_of_le' (Nat.le_of_not_lt hleft)
      simp only [vertexCount] at hq
      obtain ⟨u, hu⟩ := exists_walk_to_exit l.vertexCount_pos
      obtain ⟨v, hv⟩ := ihr (q := m) (by omega)
      exact ⟨_, (hu.mono hfirst).append (Walk.step hlink (walk_moveUp hsecond hv))⟩
  | alt l r ihl ihr =>
    have hleft : ∀ t ∈ detour 2 l.exit 1 l.steps, t ∈ (alt l r).steps :=
      fun t ht => List.mem_append_left _ ht
    have hright : ∀ t ∈ detour (l.vertexCount + 2) r.exit 1 r.steps, t ∈ (alt l r).steps :=
      fun t ht => List.mem_append_right _ ht
    obtain rfl | rfl | ⟨m, rfl⟩ := eq_zero_or_one_or_add_two q
    · exact ⟨[], Walk.nil 0⟩
    · obtain ⟨u, hu⟩ := exists_walk_to_exit l.vertexCount_pos
      exact ⟨u, walk_detour_zero hleft hu⟩
    · simp only [vertexCount] at hq
      by_cases hm : m < l.vertexCount
      · obtain ⟨u, hu⟩ := ihl hm
        exact ⟨u, walk_into_detour hleft hu⟩
      · obtain ⟨m, rfl⟩ := Nat.exists_eq_add_of_le' (Nat.le_of_not_lt hm)
        obtain ⟨v, hv⟩ := ihr (q := m) (by omega)
        rw [Nat.add_assoc]
        exact ⟨v, walk_into_detour hright hv⟩
  | star e ih =>
    cases q with
    | zero => exact ⟨[], Walk.nil 0⟩
    | succ m =>
      obtain ⟨u, hu⟩ := ih (Nat.lt_of_succ_lt_succ hq)
      exact ⟨u, walk_into_detour (fun _ ht => ht) hu⟩

end Recognizer.Expression
