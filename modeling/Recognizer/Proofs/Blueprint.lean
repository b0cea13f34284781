import Recognizer.Expression.Construction
import Recognizer.Expression.Language

/-!
# The blueprint of an expression

The construction of an automaton for an expression, with plain numbers for vertices: a finite list of
steps between the numbers below `vertexCount`, with zero as the start and one number as the exit.
Here nothing can fail and nothing wraps around.

What can be read on the way to the exit is computed from the expression for every number, not only
for the start (`residual`). That no step of the blueprint leads out of these languages gives one
inclusion for all walks at once; the other is a walk for every word, found along the expression.
Together, the walks from the start spell the language of the expression (`walk_iff_mem_language`).
-/

namespace Recognizer

open Computability

/-! ### Walks -/

/-- The listed steps lead from one place to another and spell the given word. -/
inductive Walk {ν : Type} (steps : List (Transition ν)) : ν → List Char → ν → Prop
  /-- The walk that stays where it is. -/
  | nil (q : ν) : Walk steps q [] q
  /-- A listed step before a walk. -/
  | step {q r p : ν} {s : Symbol} {w : List Char} (first : ⟨q, s, r⟩ ∈ steps)
      (rest : Walk steps r w p) : Walk steps q (s.toList ++ w) p

namespace Walk

variable {ν : Type} {steps more : List (Transition ν)} {p q r : ν} {u v w : List Char}

/-- A single step is a walk. -/
theorem single {s : Symbol} (h : ⟨q, s, r⟩ ∈ steps) : Walk steps q s.toList r := by
  simpa using step h (nil r)

/-- A walk is continued by another one. -/
theorem append (h : Walk steps q u r) (h' : Walk steps r v p) : Walk steps q (u ++ v) p := by
  induction h with
  | nil => exact h'
  | step first _ ih => simpa using step first (ih h')

/-- A walk stays possible when there are more steps. -/
theorem mono (hsub : ∀ t ∈ steps, t ∈ more) (h : Walk steps q w p) : Walk more q w p := by
  induction h with
  | nil q => exact nil q
  | step first _ ih => exact step (hsub _ first) ih

/-- A walk is renamed along with its steps. -/
theorem rename {μ : Type} (f : ν → μ) (h : Walk steps q w p) :
    Walk (steps.map (Transition.rename f)) (f q) w (f p) := by
  induction h with
  | nil q => exact nil (f q)
  | step first _ ih => exact step (List.mem_map_of_mem first) ih

/-- Languages at all places hold every walk to a place if they hold the empty word there and no step
leads out of them. -/
theorem mem_of_step {language : ν → Language Char} (hexit : [] ∈ language p)
    (hstep : ∀ t ∈ steps, ∀ w ∈ language t.target, t.symbol.toList ++ w ∈ language t.source)
    (h : Walk steps q w p) : w ∈ language q := by
  induction h with
  | nil => exact hexit
  | step first _ ih => exact hstep _ first _ (ih hexit)

end Walk

namespace Expression

/-! ### The blueprint -/

/-- The number at which the words of the expression end. -/
def exit : Expression → Nat
  | atom _ => 1
  | seq l r => r.exit + l.vertexCount
  | alt _ _ => 1
  | star _ => 0

/-- The steps moved up by an offset. -/
def moveUp (offset : Nat) (steps : List (Transition Nat)) : List (Transition Nat) :=
  steps.map (Transition.rename (· + offset))

/-- The steps of a part moved up by an offset, with a silent way from zero to its first number and
one from its exit to `into`. -/
def detour (offset exit into : Nat) (steps : List (Transition Nat)) : List (Transition Nat) :=
  ⟨0, none, offset⟩ :: ⟨exit + offset, none, into⟩ :: moveUp offset steps

/-- The steps of the construction. -/
def steps : Expression → List (Transition Nat)
  | atom s => [⟨0, s, 1⟩]
  | seq l r => l.steps ++ ⟨l.exit, none, l.vertexCount⟩ :: moveUp l.vertexCount r.steps
  | alt l r => detour 2 l.exit 1 l.steps ++ detour (l.vertexCount + 2) r.exit 1 r.steps
  | star e => detour 1 e.exit 0 e.steps

/-- The words that can be read from a number on the way to the exit. -/
def residual : Expression → Nat → Language Char
  | atom s, q => if q = 0 then {s.toList} else 1
  | seq l r, q =>
    if q < l.vertexCount then l.residual q * r.language else r.residual (q - l.vertexCount)
  | alt l r, q =>
    if q = 0 then l.language + r.language
    else if q = 1 then 1
    else if q < l.vertexCount + 2 then l.residual (q - 2)
    else r.residual (q - (l.vertexCount + 2))
  | star e, q => if q = 0 then e.language∗ else e.residual (q - 1) * e.language∗

variable {e l r : Expression} {t : Transition Nat} {offset exit into p q : Nat} {w : List Char}

/-- The moved steps are the steps between the moved places. -/
theorem mem_moveUp {steps : List (Transition Nat)} :
    t ∈ moveUp offset steps ↔
      ∃ t' ∈ steps, t = ⟨t'.source + offset, t'.symbol, t'.target + offset⟩ := by
  simp only [moveUp, List.mem_map, Transition.rename, eq_comm]

/-- A detour consists of the way in, the way out and the moved steps. -/
theorem mem_detour {steps : List (Transition Nat)} :
    t ∈ detour offset exit into steps ↔
      t = ⟨0, none, offset⟩ ∨ t = ⟨exit + offset, none, into⟩ ∨ t ∈ moveUp offset steps := by
  simp only [detour, List.mem_cons]

/-- There is always a start. -/
theorem vertexCount_pos (e : Expression) : 0 < e.vertexCount := by
  induction e with
  | atom s => exact Nat.two_pos
  | seq l r ihl _ => exact Nat.add_pos_left ihl _
  | alt l r _ _ => exact Nat.succ_pos _
  | star e _ => exact Nat.succ_pos _

/-- The exit is one of the numbers. -/
theorem exit_lt (e : Expression) : e.exit < e.vertexCount := by
  induction e with
  | atom s => exact Nat.one_lt_two
  | seq l r _ ihr => simp only [Expression.exit, vertexCount]; omega
  | alt l r _ _ => simp only [Expression.exit, vertexCount]; omega
  | star e _ => exact Nat.succ_pos _

/-- Steps lead from one of the numbers to another. -/
theorem lt_of_mem_steps (h : t ∈ e.steps) :
    t.source < e.vertexCount ∧ t.target < e.vertexCount := by
  induction e generalizing t with
  | atom s =>
    rw [steps, List.mem_singleton] at h
    subst h
    exact ⟨Nat.two_pos, Nat.one_lt_two⟩
  | seq l r ihl ihr =>
    have hexit := l.exit_lt
    have hpos := r.vertexCount_pos
    rw [steps, List.mem_append, List.mem_cons, mem_moveUp] at h
    simp only [vertexCount]
    rcases h with h | rfl | ⟨t', h, rfl⟩
    · have := ihl h
      omega
    · dsimp only
      omega
    · have := ihr h
      dsimp only
      omega
  | alt l r ihl ihr =>
    have hl := l.exit_lt
    have hr := r.exit_lt
    rw [steps, List.mem_append, mem_detour, mem_detour, mem_moveUp, mem_moveUp] at h
    simp only [vertexCount]
    rcases h with (rfl | rfl | ⟨t', h, rfl⟩) | rfl | rfl | ⟨t', h, rfl⟩
    · dsimp only; omega
    · dsimp only; omega
    · have := ihl h
      dsimp only; omega
    · dsimp only; omega
    · dsimp only; omega
    · have := ihr h
      dsimp only; omega
  | star e ih =>
    have hexit := e.exit_lt
    rw [steps, mem_detour, mem_moveUp] at h
    simp only [vertexCount]
    rcases h with rfl | rfl | ⟨t', h, rfl⟩
    · dsimp only; omega
    · dsimp only; omega
    · have := ih h
      dsimp only; omega

/-! ### What can be read on the way to the exit -/

/-- In a sequence the left part is followed by the right one. -/
theorem residual_seq_left (hq : q < l.vertexCount) :
    (seq l r).residual q = l.residual q * r.language := by
  rw [residual, if_pos hq]

/-- In a sequence nothing follows the right part. -/
theorem residual_seq_right : (seq l r).residual (q + l.vertexCount) = r.residual q := by
  rw [residual, if_neg (by omega), Nat.add_sub_cancel]

/-- Nothing follows the left branch. -/
theorem residual_alt_left (hq : q < l.vertexCount) :
    (alt l r).residual (q + 2) = l.residual q := by
  rw [residual, if_neg (by omega), if_neg (by omega), if_pos (by omega), Nat.add_sub_cancel]

/-- Nothing follows the right branch. -/
theorem residual_alt_right : (alt l r).residual (q + (l.vertexCount + 2)) = r.residual q := by
  rw [residual, if_neg (by omega), if_neg (by omega), if_neg (by omega), Nat.add_sub_cancel]

/-- After the repeated part it may be repeated again. -/
theorem residual_star_succ : (star e).residual (q + 1) = e.residual q * e.language∗ := by
  rw [residual, if_neg (by omega), Nat.add_sub_cancel]

/-- What can be read from the start is the language of the expression. -/
theorem residual_zero (e : Expression) : e.residual 0 = e.language := by
  induction e with
  | atom s => cases s <;> rfl
  | seq l r ihl _ => rw [residual_seq_left l.vertexCount_pos, ihl, language]
  | alt l r _ _ => rfl
  | star e _ => rfl

/-- At the exit nothing more has to be read. -/
theorem nil_mem_residual_exit (e : Expression) : [] ∈ e.residual e.exit := by
  induction e with
  | atom s => exact Language.nil_mem_one
  | seq l r _ ihr =>
    rw [Expression.exit, residual_seq_right]
    exact ihr
  | alt l r _ _ => exact Language.nil_mem_one
  | star e _ => exact Language.nil_mem_kstar _

/-- From the first number of the second part its whole language can be read. -/
theorem residual_seq_entry : (seq l r).residual l.vertexCount = r.language := by
  have h := residual_seq_right (l := l) (r := r) (q := 0)
  rwa [Nat.zero_add, residual_zero] at h

/-- The left branch is entered with all its words ahead. -/
theorem residual_alt_left_entry : (alt l r).residual 2 = l.language := by
  have h := residual_alt_left (r := r) l.vertexCount_pos
  rwa [Nat.zero_add, residual_zero] at h

/-- The right branch is entered with all its words ahead. -/
theorem residual_alt_right_entry : (alt l r).residual (l.vertexCount + 2) = r.language := by
  have h := residual_alt_right (l := l) (r := r) (q := 0)
  rwa [Nat.zero_add, residual_zero] at h

/-- The repeated part is entered with all its words ahead, and with repetitions after them. -/
theorem residual_star_entry : (star e).residual 1 = e.language * e.language∗ := by
  have h := residual_star_succ (e := e) (q := 0)
  rwa [Nat.zero_add, residual_zero] at h

/-- What may be put in front of the words of a language may be put in front of longer words. -/
theorem append_mem_mul {K L M : Language Char} {u : List Char} (h : ∀ w ∈ K, u ++ w ∈ L)
    (hw : w ∈ K * M) : u ++ w ∈ L * M := by
  obtain ⟨v, hv, m, hm, rfl⟩ := Language.mem_mul.1 hw
  rw [← List.append_assoc]
  exact Language.append_mem_mul (h v hv) hm

/-- A word of a language may be put in front of any number of its words. -/
theorem append_mem_kstar {L : Language Char} {u : List Char} (hu : u ∈ L) (hw : w ∈ L∗) :
    u ++ w ∈ L∗ := by
  rw [← Language.one_add_self_mul_kstar_eq_kstar]
  exact Or.inr (Language.append_mem_mul hu hw)

/-- No step leads out of what can be read on the way to the exit. -/
theorem append_mem_residual (ht : t ∈ e.steps) (hw : w ∈ e.residual t.target) :
    t.symbol.toList ++ w ∈ e.residual t.source := by
  induction e generalizing t w with
  | atom s =>
    rw [steps, List.mem_singleton] at ht
    subst ht
    have hempty : w = [] := hw
    rw [hempty, List.append_nil]
    exact rfl
  | seq l r ihl ihr =>
    rw [steps, List.mem_append, List.mem_cons, mem_moveUp] at ht
    rcases ht with ht | rfl | ⟨t', ht, rfl⟩
    · rw [residual_seq_left (lt_of_mem_steps ht).2] at hw
      rw [residual_seq_left (lt_of_mem_steps ht).1]
      exact append_mem_mul (fun v hv => ihl ht hv) hw
    · rw [residual_seq_entry] at hw
      rw [residual_seq_left l.exit_lt]
      exact Language.append_mem_mul l.nil_mem_residual_exit hw
    · rw [residual_seq_right] at hw ⊢
      exact ihr ht hw
  | alt l r ihl ihr =>
    rw [steps, List.mem_append, mem_detour, mem_detour, mem_moveUp, mem_moveUp] at ht
    rcases ht with (rfl | rfl | ⟨t', ht, rfl⟩) | rfl | rfl | ⟨t', ht, rfl⟩
    · rw [residual_alt_left_entry] at hw
      exact Or.inl hw
    · have hempty : w = [] := hw
      rw [residual_alt_left l.exit_lt, hempty]
      exact l.nil_mem_residual_exit
    · rw [residual_alt_left (lt_of_mem_steps ht).2] at hw
      rw [residual_alt_left (lt_of_mem_steps ht).1]
      exact ihl ht hw
    · rw [residual_alt_right_entry] at hw
      exact Or.inr hw
    · have hempty : w = [] := hw
      rw [residual_alt_right, hempty]
      exact r.nil_mem_residual_exit
    · rw [residual_alt_right] at hw ⊢
      exact ihr ht hw
  | star e ih =>
    rw [steps, mem_detour, mem_moveUp] at ht
    rcases ht with rfl | rfl | ⟨t', ht, rfl⟩
    · rw [residual_star_entry] at hw
      obtain ⟨u, hu, v, hv, rfl⟩ := Language.mem_mul.1 hw
      change u ++ v ∈ e.language∗
      exact append_mem_kstar hu hv
    · rw [residual_star_succ]
      exact Language.append_mem_mul e.nil_mem_residual_exit hw
    · rw [residual_star_succ] at hw ⊢
      exact append_mem_mul (fun v hv => ih ht hv) hw

/-! ### A walk for every word -/

/-- A walk of a part is a walk of the whole. -/
theorem walk_moveUp {part whole : List (Transition Nat)}
    (hsub : ∀ t ∈ moveUp offset part, t ∈ whole) (h : Walk part q w p) :
    Walk whole (q + offset) w (p + offset) :=
  (h.rename (· + offset)).mono hsub

/-- A walk of a part to its exit goes on to where the detour leads. -/
theorem walk_detour {part whole : List (Transition Nat)}
    (hsub : ∀ t ∈ detour offset exit into part, t ∈ whole) (h : Walk part q w exit) :
    Walk whole (q + offset) w into := by
  have hpart : ∀ t ∈ moveUp offset part, t ∈ whole :=
    fun t ht => hsub t (mem_detour.2 (Or.inr (Or.inr ht)))
  have hleave : ⟨exit + offset, none, into⟩ ∈ whole := hsub _ (mem_detour.2 (Or.inr (Or.inl rfl)))
  simpa using (walk_moveUp hpart h).append (Walk.single hleave)

/-- A walk of a part from its first number to its exit makes a detour from zero. -/
theorem walk_detour_zero {part whole : List (Transition Nat)}
    (hsub : ∀ t ∈ detour offset exit into part, t ∈ whole) (h : Walk part 0 w exit) :
    Walk whole 0 w into := by
  have henter : ⟨0, none, 0 + offset⟩ ∈ whole :=
    hsub _ (mem_detour.2 (Or.inl (by rw [Nat.zero_add])))
  simpa using Walk.step henter (walk_detour hsub h)

/-- Whatever can be read on the way to the exit is spelled by a walk. -/
theorem walk_of_mem_residual (hq : q < e.vertexCount) (hw : w ∈ e.residual q) :
    Walk e.steps q w e.exit := by
  induction e generalizing q w with
  | atom s =>
    by_cases hzero : q = 0
    · subst hzero
      have hletter : w = s.toList := hw
      rw [hletter]
      exact Walk.single List.mem_cons_self
    · have hone : q = 1 := by
        simp only [vertexCount] at hq
        omega
      subst hone
      have hempty : w = [] := hw
      rw [hempty]
      exact Walk.nil 1
  | seq l r ihl ihr =>
    have hfirst : ∀ t ∈ l.steps, t ∈ (seq l r).steps := fun t ht => List.mem_append_left _ ht
    have hlink : ⟨l.exit, none, l.vertexCount⟩ ∈ (seq l r).steps :=
      List.mem_append_right _ List.mem_cons_self
    have hsecond : ∀ t ∈ moveUp l.vertexCount r.steps, t ∈ (seq l r).steps :=
      fun t ht => List.mem_append_right _ (List.mem_cons_of_mem _ ht)
    by_cases hleft : q < l.vertexCount
    · rw [residual_seq_left hleft] at hw
      obtain ⟨u, hu, v, hv, rfl⟩ := Language.mem_mul.1 hw
      have hu := (ihl hleft hu).mono hfirst
      have hv := walk_moveUp hsecond (ihr r.vertexCount_pos (r.residual_zero.symm ▸ hv))
      rw [Nat.zero_add] at hv
      exact hu.append (Walk.step hlink hv)
    · obtain ⟨m, rfl⟩ := Nat.exists_eq_add_of_le' (Nat.le_of_not_lt hleft)
      rw [residual_seq_right] at hw
      have hm : m < r.vertexCount := by
        simp only [vertexCount] at hq
        omega
      exact walk_moveUp hsecond (ihr hm hw)
  | alt l r ihl ihr =>
    have hleft : ∀ t ∈ detour 2 l.exit 1 l.steps, t ∈ (alt l r).steps :=
      fun t ht => List.mem_append_left _ ht
    have hright : ∀ t ∈ detour (l.vertexCount + 2) r.exit 1 r.steps, t ∈ (alt l r).steps :=
      fun t ht => List.mem_append_right _ ht
    match q with
    | 0 =>
      rcases hw with hw | hw
      · exact walk_detour_zero hleft (ihl l.vertexCount_pos (l.residual_zero.symm ▸ hw))
      · exact walk_detour_zero hright (ihr r.vertexCount_pos (r.residual_zero.symm ▸ hw))
    | 1 =>
      have hempty : w = [] := hw
      rw [hempty]
      exact Walk.nil 1
    | m + 2 =>
      by_cases hm : m < l.vertexCount
      · rw [residual_alt_left hm] at hw
        exact walk_detour hleft (ihl hm hw)
      · obtain ⟨m, rfl⟩ := Nat.exists_eq_add_of_le' (Nat.le_of_not_lt hm)
        rw [Nat.add_assoc, residual_alt_right] at hw
        have hm : m < r.vertexCount := by
          simp only [vertexCount] at hq
          omega
        rw [Nat.add_assoc]
        exact walk_detour hright (ihr hm hw)
  | star e ih =>
    have hpart : ∀ t ∈ detour 1 e.exit 0 e.steps, t ∈ (star e).steps := fun t ht => ht
    have hloop {w : List Char} (hw : w ∈ e.language∗) : Walk (star e).steps 0 w 0 := by
      obtain ⟨words, rfl, hwords⟩ := Language.mem_kstar.1 hw
      induction words with
      | nil => exact Walk.nil 0
      | cons u rest ihrest =>
        obtain ⟨hu, hrest⟩ := List.forall_mem_cons.1 hwords
        have hfirst := ih e.vertexCount_pos (e.residual_zero.symm ▸ hu)
        exact (walk_detour_zero hpart hfirst).append
          (ihrest hrest (Language.join_mem_kstar hrest))
    match q with
    | 0 => exact hloop hw
    | m + 1 =>
      rw [residual_star_succ] at hw
      obtain ⟨u, hu, v, hv, rfl⟩ := Language.mem_mul.1 hw
      exact (walk_detour hpart (ih (Nat.lt_of_succ_lt_succ hq) hu)).append (hloop hv)

/-- The walks to the exit spell what the expression says. -/
theorem walk_iff_mem_residual (hq : q < e.vertexCount) :
    Walk e.steps q w e.exit ↔ w ∈ e.residual q :=
  ⟨Walk.mem_of_step e.nil_mem_residual_exit fun _ ht _ => append_mem_residual ht,
    walk_of_mem_residual hq⟩

/-- The walks from the start to the exit spell the language of the expression. -/
theorem walk_iff_mem_language (e : Expression) : Walk e.steps 0 w e.exit ↔ w ∈ e.language := by
  rw [walk_iff_mem_residual e.vertexCount_pos, residual_zero]

end Expression

end Recognizer
