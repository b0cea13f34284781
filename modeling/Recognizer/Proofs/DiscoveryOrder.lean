import Mathlib.Data.List.Shortlex
import Recognizer.Proofs.Exploration

/-!
# Numbers follow the least words

The search meets sets in the order of the moves that lead to them for the first time: by the number of
the set that is left, then by the character. So a set that another one follows in the list was met on
an earlier move than any move to the other (`exists_earlier_move`).

By induction on a word to a vertex, extended at its end, every vertex with a smaller number is reached
on a word that comes before it in shortlex order (`exists_shortlex_path`). Hence the order of the
numbers is that of the least words, and it can be read off the automaton without knowing how the
construction went.
-/

namespace Recognizer

open Std

namespace Automaton

variable {A : Automaton} {found news : List VertexSet} {states next target : VertexSet}
variable {b i j k m : Nat} {c : Char}

/-! ### The order in which sets are appended -/

/-- Without repetitions, what a beginning of the list holds is found there. -/
theorem lt_length_of_isPrefix_of_mem (hnodup : news.Nodup) (hkept : found <+: news)
    (hk : news[k]? = some states) (hmem : states ∈ found) : k < found.length := by
  obtain ⟨hlt, rfl⟩ := List.getElem?_eq_some_iff.1 hk
  rw [hkept.mem_iff_idxOf_lt_length, hnodup.idxOf_getElem k hlt] at hmem
  exact hmem

/-- Of two sets that are new, the one that is listed first is appended first. -/
theorem exists_getElem?_of_appendNew (hnodup : found.Nodup) (hj : found.length ≤ j) (hjk : j < k)
    (htarget : (appendNew found news)[j]? = some target)
    (hnext : (appendNew found news)[k]? = some next) (hb : news[b]? = some next) :
    ∃ a < b, news[a]? = some target := by
  induction news generalizing found b with
  | nil => simp at hb
  | cons first rest ih =>
    have hstep : appendNew found (first :: rest) = appendNew (appendNew found [first]) rest := rfl
    rw [hstep] at htarget hnext
    have hnodup' : (appendNew found [first]).Nodup := nodup_appendNew hnodup
    have hfirst : first ∈ appendNew found [first] := mem_appendNew.2 (Or.inr (by simp))
    have hlength : (appendNew found [first]).length ≤ found.length + 1 := by
      by_cases hmem : first ∈ found
      · simp [appendNew_singleton_of_mem hmem]
      · simp [appendNew_singleton_of_notMem hmem]
    cases b with
    | zero =>
      rw [List.getElem?_cons_zero, Option.some.injEq] at hb
      have hlt := lt_length_of_isPrefix_of_mem (nodup_appendNew hnodup') prefix_appendNew hnext
        (hb ▸ hfirst)
      omega
    | succ b =>
      rcases Nat.lt_or_ge j (appendNew found [first]).length with hlt | hge
      · have hnew : first ∉ found := by
          intro hmem
          rw [appendNew_singleton_of_mem hmem] at hlt
          omega
        rw [appendNew_singleton_of_notMem hnew] at hlt htarget
        rw [List.length_append, List.length_singleton] at hlt
        obtain rfl : j = found.length := by omega
        have hplace := List.prefix_iff_getElem?.1
          (prefix_appendNew : found ++ [first] <+: appendNew (found ++ [first]) rest)
          found.length (by simp)
        rw [hplace, List.getElem_concat_length rfl, Option.some.injEq] at htarget
        exact ⟨0, Nat.succ_pos b, congrArg some htarget⟩
      · obtain ⟨a, hab, ha⟩ := ih hnodup' hge htarget hnext hb
        exact ⟨a + 1, Nat.succ_lt_succ hab, ha⟩

/-- Behind the sets that were found before stand sets that a move leads to. -/
theorem exists_move_of_length_le (hnodup : found.Nodup) (hj : found.length ≤ j)
    (htarget : (appendNew found ((A.moves states).toList.map Prod.snd))[j]? = some target) :
    ∃ c : Char, (A.moves states)[c]? = some target := by
  rcases mem_appendNew.1 (List.mem_of_getElem? htarget) with hold | hnew
  · have hlt := lt_length_of_isPrefix_of_mem (nodup_appendNew hnodup) prefix_appendNew htarget hold
    omega
  · exact mem_moves_values.1 hnew

/-- Of two sets that an expansion appends, the one with the lesser place is reached on a lesser
character. -/
theorem exists_move_lt (hnodup : found.Nodup) (hj : found.length ≤ j) (hjk : j < k)
    (htarget : (appendNew found ((A.moves states).toList.map Prod.snd))[j]? = some target)
    (hnext : (appendNew found ((A.moves states).toList.map Prod.snd))[k]? = some next)
    (hmove : (A.moves states)[c]? = some next) :
    ∃ d < c, (A.moves states)[d]? = some target := by
  obtain ⟨b, hb⟩ := List.mem_iff_getElem?.1 (ExtTreeMap.mem_toList_iff_getElem?_eq_some.2 hmove)
  have hlisted : ((A.moves states).toList.map Prod.snd)[b]? = some next := by
    rw [List.getElem?_map, hb, Option.map_some]
  obtain ⟨a, hab, ha⟩ := exists_getElem?_of_appendNew hnodup hj hjk htarget hnext hlisted
  obtain ⟨⟨d, _⟩, hd, rfl⟩ := Option.map_eq_some_iff.1 (List.getElem?_map ▸ ha)
  refine ⟨d, ?_, ExtTreeMap.mem_toList_iff_getElem?_eq_some.1 (List.mem_of_getElem? hd)⟩
  obtain ⟨halt, hda⟩ := List.getElem?_eq_some_iff.1 hd
  obtain ⟨hblt, hcb⟩ := List.getElem?_eq_some_iff.1 hb
  have hordered := List.pairwise_iff_getElem.1 (A.moves states).ordered_keys_toList a b halt hblt hab
  rw [hda, hcb] at hordered
  exact compareOfLessAndEq_eq_lt.1 hordered

/-- A set that another one follows in the list was met on an earlier move: one that leaves an earlier
set, or the same set on a lesser character. -/
theorem exists_earlier_move (hnodup : found.Nodup) (hj : found.length ≤ j) (hjk : j < k)
    (him : i ≤ m) (hm : (A.discover found i)[m]? = some states)
    (hmove : (A.moves states)[c]? = some next) (hnext : (A.discover found i)[k]? = some next)
    (htarget : (A.discover found i)[j]? = some target) :
    ∃ l before d, (A.discover found i)[l]? = some before ∧ (A.moves before)[d]? = some target ∧
      (l < m ∨ l = m ∧ d < c) := by
  fun_induction discover A found i with
  | case1 found i h ih =>
    generalize hwider : appendNew found ((A.moves found[i]).toList.map Prod.snd) = wider at *
    have hnodup' : wider.Nodup := hwider ▸ nodup_appendNew hnodup
    have hplace : (A.discover wider (i + 1))[i]? = some found[i] :=
      List.prefix_iff_getElem?.1 ((hwider ▸ prefix_appendNew).trans prefix_discover) i h
    have hfound {j : Nat} (hj : j < wider.length) : wider[j]? = (A.discover wider (i + 1))[j]? := by
      rw [List.getElem?_eq_getElem hj, List.prefix_iff_getElem?.1 prefix_discover j hj]
    -- What the set expanded here moves to is known before anything that is met later.
    have hlast (him : i = m) : k < wider.length := by
      subst him
      rw [hplace, Option.some.injEq] at hm
      have hmem : next ∈ wider :=
        hwider ▸ mem_appendNew.2 (Or.inr (mem_moves_values.2 ⟨c, hm ▸ hmove⟩))
      exact lt_length_of_isPrefix_of_mem (nodup_discover hnodup') prefix_discover hnext hmem
    rcases Nat.lt_or_ge j wider.length with hhere | hlater
    · rw [← hfound hhere] at htarget
      rcases Nat.eq_or_lt_of_le him with rfl | hlt
      · rw [← hfound (hlast rfl)] at hnext
        rw [hplace, Option.some.injEq] at hm
        subst hm hwider
        obtain ⟨d, hdc, hd⟩ := exists_move_lt hnodup hj hjk htarget hnext hmove
        exact ⟨i, _, d, hplace, hd, Or.inr ⟨rfl, hdc⟩⟩
      · subst hwider
        obtain ⟨d, hd⟩ := exists_move_of_length_le hnodup hj htarget
        exact ⟨i, _, d, hplace, hd, Or.inl hlt⟩
    · refine ih hnodup' hlater (Nat.lt_of_le_of_ne him fun heq => ?_) hm hnext htarget
      have hlt := hlast heq
      omega
  | case2 found i h =>
    have hlt := (List.getElem?_eq_some_iff.1 htarget).choose
    omega

/-! ### Words and their order -/

/-- A word before another one stays before it when both are made longer by a letter. -/
theorem shortlex_concat {u v : List Char} (h : List.Shortlex (· < ·) u v) (d c : Char) :
    List.Shortlex (· < ·) (u ++ [d]) (v ++ [c]) := by
  rcases List.shortlex_def.1 h with hlt | ⟨hlength, hlex⟩
  · exact .of_length_lt (by simpa using hlt)
  · refine .of_lex (by simpa using hlength) ?_
    clear h
    induction hlex with
    | nil => simp at hlength
    | cons _ ih => exact List.Lex.cons (ih (by simpa using hlength))
    | rel hlt => exact List.Lex.rel hlt

/-- Words that come before a word come before those after it. -/
theorem shortlex_trans {u v w : List Char} (h : List.Shortlex (· < ·) u v)
    (h' : List.Shortlex (· < ·) v w) : List.Shortlex (· < ·) u w := by
  rw [List.shortlex_def] at *
  rcases h with hlt | ⟨heq, hlex⟩
  · exact Or.inl (by omega)
  · rcases h' with hlt' | ⟨heq', hlex'⟩
    · exact Or.inl (by omega)
    · exact Or.inr ⟨heq.trans heq', List.lex_trans Char.lt_trans hlex hlex'⟩

/-- The word leads from one vertex to the other, and no other one that does comes before it. -/
structure IsLeastWord (A : Automaton) (q : Vertex) (w : List Char) (p : Vertex) : Prop where
  path : A.Path q w p
  eq_or_shortlex : ∀ v, A.Path q v p → v = w ∨ List.Shortlex (· < ·) w v

/-- If some word leads from one vertex to the other, there is a first one. -/
theorem exists_isLeastWord {p q : Vertex} {w : List Char} (h : A.Path q w p) :
    ∃ u, A.IsLeastWord q u p := by
  have hwf : WellFounded (List.Shortlex fun a b : Char => a < b) :=
    List.Shortlex.wf (InvImage.wf Char.toNat Nat.lt_wfRel.wf)
  obtain ⟨u, hu, hleast⟩ := hwf.has_min {w | A.Path q w p} ⟨w, h⟩
  refine ⟨u, hu, fun v hv => ?_⟩
  rcases trichotomous_of (List.Shortlex fun a b : Char => a < b) v u with hlt | heq | hgt
  · exact absurd hlt (hleast v hv)
  · exact Or.inl heq
  · exact Or.inr hgt

section Bounded

variable {p q r : Vertex} {u v w : List Char}
variable (hfew : A.determinize.subsets.length < UInt32.size)
include hfew

/-- A vertex other than zero is entered earlier than any greater vertex. -/
theorem exists_earlier_step (hq : A.determinize.automaton.contains q = true) (hpos : q ≠ 0)
    (hqr : q < r) (hstep : r ∈ A.determinize.automaton.successors p (some c)) :
    ∃ p' d, q ∈ A.determinize.automaton.successors p' (some d) ∧ (p' < p ∨ p' = p ∧ d < c) := by
  obtain ⟨states, next, c', hc, hstates, hmove, hnext⟩ := (mem_successors_determinize hfew).1 hstep
  cases hc
  obtain ⟨target, htarget⟩ := (contains_determinize_iff_exists hfew).1 hq
  have hone : [A.closure A.start].length ≤ q.toNat := by
    refine Nat.one_le_iff_ne_zero.2 fun hzero => hpos ?_
    rw [← UInt32.toNat_inj, hzero]
    rfl
  obtain ⟨l, before, d, hl, hd, horder⟩ := exists_earlier_move (List.nodup_singleton _) hone
    (UInt32.lt_iff_toNat_lt.1 hqr) (Nat.zero_le _) hstates hmove hnext htarget
  have hnumber : (vertexAt l).toNat = l :=
    toNat_vertexAt (Nat.lt_trans (List.getElem?_eq_some_iff.1 hl).choose hfew)
  refine ⟨vertexAt l, d, (mem_successors_determinize hfew).2
    ⟨before, _, d, rfl, subset_vertexAt hfew hl, hd, htarget⟩, ?_⟩
  rw [UInt32.lt_iff_toNat_lt, ← UInt32.toNat_inj, hnumber]
  exact horder

/-- A lesser vertex is reached on a word that comes before. -/
theorem exists_shortlex_path (hq : A.determinize.automaton.contains q = true) (hqr : q < r)
    (hpath : A.determinize.automaton.Path 0 v r) :
    ∃ u, A.determinize.automaton.Path 0 u q ∧ List.Shortlex (· < ·) u v := by
  induction v using List.reverseRecOn generalizing q r with
  | nil =>
    obtain rfl : 0 = r := (path_nil_iff.1 hpath).eq fun _ _ => not_mem_successors_determinize hfew
    exact absurd (UInt32.lt_iff_toNat_lt.1 hqr) (Nat.not_lt_zero _)
  | append_singleton v c ih =>
    by_cases hzero : q = 0
    · subst hzero
      exact ⟨[], .nil 0, .of_length_lt (by simp)⟩
    obtain ⟨p, hp, hstep⟩ := (path_concat_determinize_iff hfew).1 hpath
    obtain ⟨p', d, hstep', hlt | ⟨rfl, hdc⟩⟩ := exists_earlier_step hfew hq hzero hqr hstep
    · obtain ⟨u, hu, huv⟩ := ih (contains_of_mem_successors hstep') hlt hp
      exact ⟨u ++ [d], (path_concat_determinize_iff hfew).2 ⟨p', hu, hstep'⟩, shortlex_concat huv d c⟩
    · exact ⟨v ++ [d], (path_concat_determinize_iff hfew).2 ⟨p', hp, hstep'⟩,
        .append_left ((List.shortlex_singleton_iff d c).2 hdc) v⟩

/-- The numbers are in the order of the least words. -/
theorem lt_iff_shortlex (hu : A.determinize.automaton.IsLeastWord 0 u q)
    (hv : A.determinize.automaton.IsLeastWord 0 v r) : q < r ↔ List.Shortlex (· < ·) u v := by
  have hbefore {q r : Vertex} {u v : List Char} (hu : A.determinize.automaton.IsLeastWord 0 u q)
      (hv : A.determinize.automaton.IsLeastWord 0 v r) (hqr : q < r) :
      List.Shortlex (· < ·) u v := by
    have hD := wellFormed_determinize hfew
    have hq := hD.contains_of_path (start_determinize ▸ hD.contains_start) hu.path
    obtain ⟨w, hw, hwv⟩ := exists_shortlex_path hfew hq hqr hv.path
    rcases hu.eq_or_shortlex w hw with rfl | huw
    · exact hwv
    · exact shortlex_trans huw hwv
  refine ⟨hbefore hu hv, fun huv => ?_⟩
  by_contra hnot
  rcases UInt32.lt_or_eq_of_le (UInt32.not_lt.1 hnot) with hlt | rfl
  · exact asymm huv (hbefore hv hu hlt)
  · rcases hv.eq_or_shortlex u hu.path with rfl | hvu
    · exact asymm huv huv
    · exact asymm huv hvu

end Bounded

/-- The loop stops when it has expanded each set once, in the order of the numbers. Every number is
reached on a least word, and the numbers are in the shortlex order of these words. -/
theorem determinize_numbers_by_least_words (A : Automaton) (hA : A.WellFormed)
    (hfew : A.determinize.subsets.length < UInt32.size) :
    (∃ E, Exploration.after? A A.determinize.subsets.length = some E ∧ E.queue = [] ∧
      E.expanded.map UInt32.toNat = List.range A.determinize.subsets.length ∧
      E.toSubsetAutomaton = A.determinize) ∧
    (∀ i, A.determinize.automaton.contains i = true →
      ∃ w, A.determinize.automaton.IsLeastWord 0 w i) ∧
    ∀ i j u v, A.determinize.automaton.IsLeastWord 0 u i →
      A.determinize.automaton.IsLeastWord 0 v j → (i < j ↔ List.Shortlex (· < ·) u v) := by
  refine ⟨Exploration.exists_after?_length hfew, fun i hi => ?_, fun i j u v hu hv => ?_⟩
  · obtain ⟨w, hpath⟩ := exists_path_of_contains hfew hA hi
    exact exists_isLeastWord hpath
  · exact lt_iff_shortlex hfew hu hv

/-- Two letters lead from the start to vertices that are not numbered in the order of the letters,
and a cycle leads back. -/
def crossedLetters : Automaton :=
  [⟨0, some 'a', 2⟩, ⟨0, some 'b', 1⟩, ⟨1, some 'a', 0⟩, ⟨2, none, 1⟩].foldl insertTransition
    (((singleton 0).insertVertex 1).insertVertex 2 |>.insertFinish 1)

/-- The automaton of crossed letters is well-formed. -/
theorem wellFormed_crossedLetters : crossedLetters.WellFormed := by
  refine WellFormed.foldl_insertTransition ?_ (by decide)
  exact (((WellFormed.singleton 0).insertVertex 1).insertVertex 2).insertFinish (by decide)

/-- The sets of the crossed letters are numbered in the order of the letters. -/
theorem determinize_crossedLetters_numbers_by_least_words :
    (∃ E, Exploration.after? crossedLetters crossedLetters.determinize.subsets.length = some E ∧
      E.queue = [] ∧
      E.expanded.map UInt32.toNat = List.range crossedLetters.determinize.subsets.length ∧
      E.toSubsetAutomaton = crossedLetters.determinize) ∧
    (∀ i, crossedLetters.determinize.automaton.contains i = true →
      ∃ w, crossedLetters.determinize.automaton.IsLeastWord 0 w i) ∧
    ∀ i j u v, crossedLetters.determinize.automaton.IsLeastWord 0 u i →
      crossedLetters.determinize.automaton.IsLeastWord 0 v j →
        (i < j ↔ List.Shortlex (· < ·) u v) :=
  determinize_numbers_by_least_words crossedLetters wellFormed_crossedLetters (by decide +kernel)

example : crossedLetters.determinize.subsets.map (·.toList) = [[0], [1, 2], [1]] := by
  decide +kernel

end Automaton

end Recognizer
