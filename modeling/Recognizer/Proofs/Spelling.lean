import Recognizer.Expression.Language
import Recognizer.Proofs.DiscoveryOrder
import Recognizer.Proofs.Stages

/-!
# Literals are compiled to their spelling

If an automaton without dead vertices accepts one word only, then the words that lead from the start
somewhere are the prefixes of this word. So the subset construction finds one set for each prefix.
As numbers follow the least words and different prefixes lead to different sets, the vertices are
numbered by the lengths of the prefixes, and the deterministic automaton is the chain of the letters
(`AcceptsOnly.isChainOf_determinize`). This needs no look at the construction, which makes two
vertices of each letter, nor at the vertices that elimination leaves unreachable.

Completion puts the sink behind the chain. What comes out is written down letter by letter as
`SpellsOut`, which leaves no choice.

Main statement: `Expression.compile_literal`.
-/

namespace Recognizer

open Std

namespace Automaton

variable {A B : Automaton} {letters u v w : List Char} {characters : Alphabet} {p q r : Vertex}
variable {s : Symbol} {c : Char}

/-! ### Sets and words -/

/-- There are no more sets than there are words that lead somewhere. -/
theorem WellFormed.length_reachableSubsets_le_of_words (hA : A.WellFormed)
    {words : List (List Char)} (hwords : ∀ w q, A.Path A.start w q → w ∈ words) :
    A.reachableSubsets.length ≤ words.length := by
  choose read hread using A.exists_readBy
  have hsubset : A.reachableSubsets ⊆ words.map read := by
    intro states hstates
    obtain ⟨w, hw⟩ := exists_readBy_of_mem_reachableSubsets hstates
    obtain ⟨q, hq⟩ := hA.exists_mem_of_mem_reachableSubsets hstates
    exact List.mem_map.2 ⟨w, hwords w q ((hw q).1 hq), (hread w).unique hw⟩
  simpa using (List.subperm_of_subset nodup_reachableSubsets hsubset).length_le

/-! ### Automata for one word -/

/-- A well-formed automaton without dead vertices accepts this word and no other. -/
structure AcceptsOnly (A : Automaton) (letters : List Char) : Prop where
  wellFormed : A.WellFormed
  productive : A.Productive
  accepts_iff : ∀ w, A.Accepts w ↔ w = letters

namespace AcceptsOnly

/-- Elimination keeps that only the given letters are accepted. -/
theorem eliminateEpsilon (h : A.AcceptsOnly letters) : A.eliminateEpsilon.AcceptsOnly letters where
  wellFormed := h.wellFormed.eliminateEpsilon
  productive := h.productive.eliminateEpsilon
  accepts_iff w := accepts_eliminateEpsilon_iff.trans (h.accepts_iff w)

/-- The words that lead somewhere are the prefixes of the word that is accepted. -/
theorem exists_path_iff (h : A.AcceptsOnly letters) :
    (∃ q, A.Path A.start w q) ↔ w <+: letters := by
  constructor
  · rintro ⟨q, hpath⟩
    have hq := h.wellFormed.contains_of_path h.wellFormed.contains_start hpath
    obtain ⟨v, hv⟩ := h.productive q hq
    exact ⟨v, (h.accepts_iff (w ++ v)).1 (hv.of_path hpath)⟩
  · rintro ⟨v, heq⟩
    obtain ⟨p, _, hpath⟩ := (h.accepts_iff (w ++ v)).2 heq
    obtain ⟨q, hq, _⟩ := path_append_iff.1 hpath
    exact ⟨q, hq⟩

/-- The subset construction finds at most one set for each prefix. -/
theorem length_subsets_le (h : A.AcceptsOnly letters) :
    A.determinize.subsets.length ≤ letters.length + 1 := by
  rw [← List.length_inits letters]
  refine h.wellFormed.length_reachableSubsets_le_of_words fun w q hpath => ?_
  exact (List.mem_inits w letters).2 (h.exists_path_iff.1 ⟨q, hpath⟩)

/-- In a deterministic automaton for one word no two words lead to one vertex. -/
theorem eq_of_path (h : A.AcceptsOnly letters) (hdet : A.isDeterministic = true)
    (hu : A.Path A.start u q) (hv : A.Path A.start v q) : u = v := by
  -- What is left of the one word is accepted from the vertex, hence also after the other word.
  obtain ⟨rest, hrest⟩ := h.exists_path_iff.1 ⟨q, hu⟩
  obtain ⟨p, hfinish, hpath⟩ := (h.accepts_iff (u ++ rest)).2 hrest
  obtain ⟨m, hm, hmp⟩ := path_append_iff.1 hpath
  obtain rfl := eq_of_path_of_isDeterministic hdet hu hm
  have hother : v ++ rest = letters := (h.accepts_iff _).1 ⟨p, hfinish, hv.append hmp⟩
  exact List.append_cancel_right (hrest.trans hother.symm)

section Bounded

variable (hfits : letters.length + 1 < UInt32.size)
include hfits

/-- An automaton that accepts only one text has few enough subsets. -/
theorem length_subsets_lt (h : A.AcceptsOnly letters) :
    A.determinize.subsets.length < UInt32.size :=
  Nat.lt_of_le_of_lt h.length_subsets_le hfits

/-- Determinization keeps that only the given letters are accepted. -/
theorem determinize (h : A.AcceptsOnly letters) : A.determinize.automaton.AcceptsOnly letters where
  wellFormed := wellFormed_determinize (h.length_subsets_lt hfits)
  productive := h.productive.determinize (h.length_subsets_lt hfits) h.wellFormed
  accepts_iff w := (accepts_determinize_iff (h.length_subsets_lt hfits) h.wellFormed).trans
    (h.accepts_iff w)

/-- Just the beginnings of the letters have paths from the start. -/
theorem exists_path_determinize_iff (h : A.AcceptsOnly letters) :
    (∃ q, A.determinize.automaton.Path 0 w q) ↔ w <+: letters := by
  rw [← (h.determinize hfits).exists_path_iff, start_determinize]

/-- The only word that leads to a vertex of the subset automaton is the least one. -/
theorem isLeastWord (h : A.AcceptsOnly letters) (hpath : A.determinize.automaton.Path 0 w q) :
    A.determinize.automaton.IsLeastWord 0 w q where
  path := hpath
  eq_or_shortlex v hv := by
    have hdet := isDeterministic_determinize (h.length_subsets_lt hfits)
    rw [← start_determinize (A := A)] at hpath hv
    exact Or.inl ((h.determinize hfits).eq_of_path hdet hv hpath)

/-- One letter more leads to a greater vertex. -/
theorem lt_of_path_concat (h : A.AcceptsOnly letters) (hq : A.determinize.automaton.Path 0 w q)
    (hr : A.determinize.automaton.Path 0 (w ++ [c]) r) : q.toNat < r.toNat := by
  have hshorter : List.Shortlex (· < ·) w (w ++ [c]) := .of_length_lt (by simp)
  exact UInt32.lt_iff_toNat_lt.1 ((lt_iff_shortlex (h.length_subsets_lt hfits)
    (h.isLeastWord hfits hq) (h.isLeastWord hfits hr)).2 hshorter)

/-- A vertex is no less than the length of its word, as every letter has led to a greater vertex. -/
theorem length_le_of_path (h : A.AcceptsOnly letters) (hpath : A.determinize.automaton.Path 0 w q) :
    w.length ≤ q.toNat := by
  induction w using List.reverseRecOn generalizing q with
  | nil => exact Nat.zero_le _
  | append_singleton w c ih =>
    obtain ⟨m, hm, _⟩ := path_append_iff.1 hpath
    have hlt := h.lt_of_path_concat hfits hm hpath
    have hle := ih hm
    rw [List.length_append, List.length_singleton]
    omega

/-- A vertex leaves room for the vertices of the letters that are still to come. -/
theorem add_length_le_of_path (h : A.AcceptsOnly letters)
    (hpath : A.determinize.automaton.Path 0 w q) (hrest : w ++ v = letters) :
    q.toNat + v.length ≤ letters.length := by
  have hfew := h.length_subsets_lt hfits
  induction v generalizing w q with
  | nil =>
    -- Behind the last letter only the number of sets bounds the vertex.
    have hwell := wellFormed_determinize hfew
    have hq := hwell.contains_of_path (start_determinize ▸ hwell.contains_start) hpath
    have hlt := (contains_determinize hfew).1 hq
    have hle := h.length_subsets_le
    rw [List.length_nil]
    omega
  | cons c v ih =>
    have hrest' : (w ++ [c]) ++ v = letters := by
      rw [List.append_assoc, List.singleton_append, hrest]
    obtain ⟨r, hr⟩ := (h.exists_path_determinize_iff hfits).2 ⟨v, hrest'⟩
    have hlt := h.lt_of_path_concat hfits hpath hr
    have hle := ih hr hrest'
    rw [List.length_cons]
    omega

/-- In the subset automaton a prefix leads to the vertex numbered by its length. -/
theorem path_determinize_iff (h : A.AcceptsOnly letters) :
    A.determinize.automaton.Path 0 w q ↔ w <+: letters ∧ q.toNat = w.length := by
  have hnumber {q : Vertex} (hpath : A.determinize.automaton.Path 0 w q) : q.toNat = w.length := by
    obtain ⟨v, hrest⟩ := (h.exists_path_determinize_iff hfits).1 ⟨q, hpath⟩
    have hle := h.length_le_of_path hfits hpath
    have hge := h.add_length_le_of_path hfits hpath hrest
    rw [← hrest, List.length_append] at hge
    omega
  constructor
  · intro hpath
    exact ⟨(h.exists_path_determinize_iff hfits).1 ⟨q, hpath⟩, hnumber hpath⟩
  · rintro ⟨hbegins, hlength⟩
    obtain ⟨r, hr⟩ := (h.exists_path_determinize_iff hfits).2 hbegins
    obtain rfl : r = q := UInt32.toNat_inj.1 ((hnumber hr).trans hlength.symm)
    exact hr

/-- A vertex in range is reached on the prefix whose length is its number. -/
theorem path_take (h : A.AcceptsOnly letters) (hq : q.toNat ≤ letters.length) :
    A.determinize.automaton.Path 0 (letters.take q.toNat) q :=
  (h.path_determinize_iff hfits).2 ⟨List.take_prefix _ _, (List.length_take_of_le hq).symm⟩

/-- There is one vertex for each prefix. -/
theorem contains_determinize_iff (h : A.AcceptsOnly letters) :
    A.determinize.automaton.contains q = true ↔ q.toNat ≤ letters.length := by
  constructor
  · intro hq
    obtain ⟨w, hw⟩ := exists_path_of_contains (h.length_subsets_lt hfits) h.wellFormed hq
    obtain ⟨hbegins, hlength⟩ := (h.path_determinize_iff hfits).1 hw
    exact hlength ▸ hbegins.length_le
  · intro hq
    have hwell := (h.determinize hfits).wellFormed
    exact hwell.contains_of_path (start_determinize ▸ hwell.contains_start) (h.path_take hfits hq)

/-- The vertex of the whole word is the only finish. -/
theorem isFinish_determinize_iff (h : A.AcceptsOnly letters) :
    A.determinize.automaton.isFinish q = true ↔ q.toNat = letters.length := by
  have hD := h.determinize hfits
  have haccepts (w : List Char) : (∃ q, A.determinize.automaton.isFinish q = true ∧
      A.determinize.automaton.Path 0 w q) ↔ w = letters := by
    rw [← hD.accepts_iff w, Accepts, start_determinize, AcceptsFrom]
  constructor
  · intro hq
    have hle := (h.contains_determinize_iff hfits).1 (hD.wellFormed.contains_finish q hq)
    have hwhole := (haccepts _).1 ⟨q, hq, h.path_take hfits hle⟩
    exact Nat.le_antisymm hle ((List.take_eq_self_iff letters).1 hwhole)
  · intro hq
    obtain ⟨p, hfinish, hp⟩ := (haccepts letters).2 rfl
    have hlength := ((h.path_determinize_iff hfits).1 hp).2
    obtain rfl : p = q := UInt32.toNat_inj.1 (hlength.trans hq.symm)
    exact hfinish

/-- From each prefix the next letter leads to the next one. -/
theorem mem_successors_determinize_iff (h : A.AcceptsOnly letters) :
    r ∈ A.determinize.automaton.successors q s ↔
      ∃ c, s = some c ∧ letters[q.toNat]? = some c ∧ r.toNat = q.toNat + 1 := by
  have hfew := h.length_subsets_lt hfits
  constructor
  · intro hr
    obtain ⟨_, _, c, rfl, _⟩ := (mem_successors_determinize hfew).1 hr
    have hle := (h.contains_determinize_iff hfits).1 (contains_of_mem_successors hr)
    have hpath := (path_concat_determinize_iff hfew).2 ⟨q, h.path_take hfits hle, hr⟩
    obtain ⟨hbegins, hlength⟩ := (h.path_determinize_iff hfits).1 hpath
    have hq : (letters.take q.toNat).length = q.toNat := List.length_take_of_le hle
    have hc := List.prefix_iff_getElem?.1 hbegins q.toNat (by simp [hq])
    rw [List.getElem_concat_length hq.symm] at hc
    rw [List.length_append, hq, List.length_singleton] at hlength
    exact ⟨c, rfl, hc, hlength⟩
  · -- The longer prefix leads to `r`, and all of it but the last letter can only lead to `q`.
    rintro ⟨c, rfl, hc, hr⟩
    obtain ⟨hlt, hget⟩ := List.getElem?_eq_some_iff.1 hc
    have hpath := h.path_take hfits (q := r) (by omega)
    rw [hr, ← List.take_concat_get' letters q.toNat hlt, hget] at hpath
    obtain ⟨m, hm, hstep⟩ := (path_concat_determinize_iff hfew).1 hpath
    have hlength := ((h.path_determinize_iff hfits).1 hm).2
    rw [List.length_take_of_le (Nat.le_of_lt hlt)] at hlength
    obtain rfl : m = q := UInt32.toNat_inj.1 hlength
    exact hstep

end Bounded

end AcceptsOnly

/-! ### Chains -/

/-- The automaton reads the letters along the vertices 0, 1, 2 and so on, and can read nothing
else. -/
structure IsChainOf (A : Automaton) (letters : List Char) : Prop where
  wellFormed : A.WellFormed
  start_eq : A.start = 0
  contains_iff : ∀ q, A.contains q = true ↔ q.toNat ≤ letters.length
  isFinish_iff : ∀ q, A.isFinish q = true ↔ q.toNat = letters.length
  mem_successors_iff : ∀ q s r, r ∈ A.successors q s ↔
    ∃ c, s = some c ∧ letters[q.toNat]? = some c ∧ r.toNat = q.toNat + 1

/-- The subset automaton of an automaton for one word is the chain of its letters. -/
theorem AcceptsOnly.isChainOf_determinize (h : A.AcceptsOnly letters)
    (hfits : letters.length + 1 < UInt32.size) : A.determinize.automaton.IsChainOf letters where
  wellFormed := (h.determinize hfits).wellFormed
  start_eq := start_determinize
  contains_iff _ := h.contains_determinize_iff hfits
  isFinish_iff _ := h.isFinish_determinize_iff hfits
  mem_successors_iff _ _ _ := h.mem_successors_determinize_iff hfits

namespace IsChainOf

/-- A chain ends at the vertex numbered by the number of letters. -/
theorem exists_last (h : A.IsChainOf letters) (hfits : letters.length < UInt32.size) :
    ∃ q, A.contains q = true ∧ q.toNat = letters.length := by
  have hnumber : (vertexAt letters.length).toNat = letters.length := toNat_vertexAt hfits
  exact ⟨_, (h.contains_iff _).2 (Nat.le_of_eq hnumber), hnumber⟩

/-- The greatest vertex of a chain is its last. -/
theorem toNat_greatestVertex (h : A.IsChainOf letters) (hfits : letters.length < UInt32.size) :
    A.greatestVertex.toNat = letters.length := by
  obtain ⟨q, hq, hlast⟩ := h.exists_last hfits
  have hle := toNat_le_greatestVertex hq
  rw [hlast] at hle
  exact Nat.le_antisymm ((h.contains_iff _).1 (contains_greatestVertex hq)) hle

/-- A vertex of a chain has an entry for the next letter only. -/
theorem hasEntry_iff (h : A.IsChainOf letters) (hfits : letters.length < UInt32.size) :
    A.hasEntry q (some c) = true ↔ letters[q.toNat]? = some c := by
  rw [h.wellFormed.hasEntry_iff]
  constructor
  · rintro ⟨r, hr⟩
    obtain ⟨d, hd, hget, _⟩ := (h.mem_successors_iff q (some c) r).1 hr
    cases hd
    exact hget
  · intro hget
    have hlt := (List.getElem?_eq_some_iff.1 hget).choose
    have hnumber : (vertexAt (q.toNat + 1)).toNat = q.toNat + 1 := toNat_vertexAt (by omega)
    exact ⟨_, (h.mem_successors_iff q (some c) _).2 ⟨c, rfl, hget, hnumber⟩⟩

/-- A chain uses the letters. -/
theorem mem_alphabet_iff (h : A.IsChainOf letters) (hfits : letters.length < UInt32.size) :
    c ∈ A.alphabet ↔ c ∈ letters := by
  rw [mem_alphabet_iff_hasEntry, List.mem_iff_getElem?]
  simp only [h.hasEntry_iff hfits]
  constructor
  · rintro ⟨q, hget⟩
    exact ⟨q.toNat, hget⟩
  · rintro ⟨i, hget⟩
    have hlt := (List.getElem?_eq_some_iff.1 hget).choose
    exact ⟨vertexAt i, by rwa [toNat_vertexAt (Nat.lt_trans hlt hfits)]⟩

/-- At the end of a chain no character can be read. -/
theorem missingMoves_ne_nil (h : A.IsChainOf letters) (hfits : letters.length < UInt32.size)
    (hc : c ∈ characters) : A.missingMoves characters ≠ [] := by
  obtain ⟨q, hq, hlast⟩ := h.exists_last hfits
  have hentry : A.hasEntry q (some c) = false := by
    rw [Bool.eq_false_iff, ne_eq, h.hasEntry_iff hfits, hlast,
      List.getElem?_eq_none (Nat.le_refl _)]
    exact (Option.some_ne_none c).symm
  exact List.ne_nil_of_mem (mem_missingMoves.2 ⟨hq, hc, hentry⟩)

end IsChainOf

/-! ### Completion of chains -/

/-- The automaton reads the letters along the vertices 0, 1, 2 and so on, of which the last is the
only finish. The number after this is the sink, where any other move on one of the letters leads. -/
structure SpellsOut (A : Automaton) (letters : List Char) : Prop where
  wellFormed : A.WellFormed
  start_eq : A.start = 0
  contains_iff : ∀ q, A.contains q = true ↔ q.toNat ≤ letters.length + 1
  isFinish_iff : ∀ q, A.isFinish q = true ↔ q.toNat = letters.length
  mem_transitions_iff : ∀ t, t ∈ A.transitions ↔
    ∃ c ∈ letters, t.symbol = some c ∧ t.source.toNat ≤ letters.length + 1 ∧
      t.target.toNat =
        if letters[t.source.toNat]? = some c then t.source.toNat + 1 else letters.length + 1

/-- Only one automaton spells out a word. -/
theorem SpellsOut.unique (hA : A.SpellsOut letters) (hB : B.SpellsOut letters) : A = B := by
  refine hA.wellFormed.ext hB.wellFormed (hA.start_eq.trans hB.start_eq.symm) (fun q => ?_)
    (fun q => ?_) fun q s => ExtTreeSet.ext_mem fun r => ?_
  · rw [Bool.eq_iff_iff, hA.contains_iff, hB.contains_iff]
  · rw [Bool.eq_iff_iff, hA.isFinish_iff, hB.isFinish_iff]
  · have hA := hA.mem_transitions_iff ⟨q, s, r⟩
    have hB := hB.mem_transitions_iff ⟨q, s, r⟩
    rw [Automaton.mem_transitions_iff] at hA hB
    exact hA.trans hB.symm

/-- A chain that is completed over its letters spells them out. -/
theorem IsChainOf.spellsOut_withSink (h : A.IsChainOf letters)
    (hfits : letters.length + 1 < UInt32.size) (hcharacters : ∀ c, c ∈ characters ↔ c ∈ letters) :
    (A.withSink characters).SpellsOut letters := by
  have hgreatest := h.toNat_greatestVertex (Nat.lt_of_succ_lt hfits)
  have hsink : (A.greatestVertex + 1).toNat = letters.length + 1 := by
    rw [← hgreatest]
    exact Vertex.toNat_add (by rw [hgreatest]; exact hfits)
  have heq (q : Vertex) : q = A.greatestVertex + 1 ↔ q.toNat = letters.length + 1 := by
    rw [← UInt32.toNat_inj, hsink]
  have hentry (q : Vertex) (c : Char) :
      A.hasEntry q (some c) = false ↔ letters[q.toNat]? ≠ some c := by
    rw [Bool.eq_false_iff, ne_eq, h.hasEntry_iff (Nat.lt_of_succ_lt hfits)]
  refine ⟨h.wellFormed.withSink characters, start_withSink.trans h.start_eq, fun q => ?_,
    fun q => ?_, fun t => ?_⟩
  · rw [contains_withSink, heq, h.contains_iff]
    omega
  · rw [isFinish_withSink, h.isFinish_iff]
  · rw [Automaton.mem_transitions_iff, mem_successors_withSink, h.mem_successors_iff]
    simp only [hcharacters, heq, h.contains_iff, hentry]
    constructor
    · rintro (⟨c, hsymbol, hget, htarget⟩ | ⟨htarget, c, hc, hsymbol, hsource⟩)
      · have hlt := (List.getElem?_eq_some_iff.1 hget).choose
        exact ⟨c, List.mem_of_getElem? hget, hsymbol, by omega, by rw [if_pos hget, htarget]⟩
      · have hother : letters[t.source.toNat]? ≠ some c := by
          rcases hsource with hsource | ⟨_, hother⟩
          · rw [hsource, List.getElem?_eq_none (Nat.le_succ _)]
            exact Option.some_ne_none c |>.symm
          · exact hother
        exact ⟨c, hc, hsymbol, by omega, by rw [if_neg hother, htarget]⟩
    · rintro ⟨c, hc, hsymbol, hsource, htarget⟩
      by_cases hget : letters[t.source.toNat]? = some c
      · rw [if_pos hget] at htarget
        exact Or.inl ⟨c, hsymbol, hget, htarget⟩
      · rw [if_neg hget] at htarget
        refine Or.inr ⟨htarget, c, hc, hsymbol, ?_⟩
        rcases Nat.eq_or_lt_of_le hsource with hlast | hold
        · exact Or.inl hlast
        · exact Or.inr ⟨Nat.le_of_lt_succ hold, hget⟩

end Automaton

/-! ### Literals -/

namespace Expression

variable {text : String}

/-- Each further character takes two vertices. -/
theorem vertexCount_foldl_seq (e : Expression) (letters : List Char) :
    ((letters.map char).foldl seq e).vertexCount = e.vertexCount + 2 * letters.length := by
  induction letters generalizing e with
  | nil => rfl
  | cons c rest ih =>
    rw [List.map_cons, List.foldl_cons, ih, vertexCount, List.length_cons, char, vertexCount]
    omega

/-- The construction makes two vertices of each character of a text. -/
theorem vertexCount_literal (hne : text ≠ "") :
    (literal text).vertexCount = 2 * text.length := by
  rw [literal, seqOf, String.length]
  cases htext : text.toList with
  | nil => exact absurd (String.toList_eq_nil_iff.1 htext) hne
  | cons c rest =>
    change ((rest.map char).foldl seq (char c)).vertexCount = _
    rw [vertexCount_foldl_seq, List.length_cons, char, vertexCount]
    omega

/-- The construction of a literal accepts its text only. -/
theorem acceptsOnly_literal {N : Automaton}
    (hN : N.Realizes (literal text).vertexCount [(literal text).exit] (literal text).steps) :
    N.AcceptsOnly text.toList where
  wellFormed := hN.wellFormed
  productive := hN.productive
  accepts_iff w := by
    rw [accepts_toAutomaton_iff hN, language_literal]
    exact Set.mem_singleton_iff

/-- While the identifiers last for two vertices of each character, the literal of a text that is not
empty is compiled to the one automaton that spells it out, which accepts the text only. -/
theorem compile_literal (text : String) (hne : text ≠ "") (hsize : 2 * text.length ≤ UInt32.size) :
    ∃ D, (literal text).compile = .ok D ∧ D.SpellsOut text.toList ∧
      (∀ B : Automaton, B.SpellsOut text.toList → B = D) ∧
      ∀ w, D.Accepts w ↔ w = text.toList := by
  have hletters : text.toList ≠ [] := fun h => hne (String.toList_eq_nil_iff.1 h)
  have hfits : text.toList.length + 1 < UInt32.size := by
    have hlength : text.toList.length = text.length := rfl
    simp only [UInt32.size] at hsize ⊢
    omega
  obtain ⟨c, hc⟩ := List.exists_mem_of_ne_nil _ hletters
  obtain ⟨N, hN, hrealizes⟩ :=
    (literal text).toAutomaton_realizes ((vertexCount_literal hne).trans_le hsize)
  have honly := (acceptsOnly_literal hrealizes).eliminateEpsilon
  have hfew := honly.length_subsets_lt hfits
  have hchain := honly.isChainOf_determinize hfits
  have hcharacters (c : Char) :
      c ∈ Compiler.completionAlphabet {} N.eliminateEpsilon.determinize ↔ c ∈ text.toList := by
    rw [Compiler.completionAlphabet, Std.ExtTreeSet.mem_union_iff,
      or_iff_left Std.ExtTreeSet.not_mem_empty, hchain.mem_alphabet_iff (Nat.lt_of_succ_lt hfits)]
  have hmissing := hchain.missingMoves_ne_nil (Nat.lt_of_succ_lt hfits) ((hcharacters c).2 hc)
  have hspells := hchain.spellsOut_withSink hfits hcharacters
  refine ⟨_, ?_, hspells, fun B hB => hB.unique hspells, fun w => ?_⟩
  · simp [compile, Compiler.run_eq_ok hN hfew, Compiler.finalize, if_neg hmissing,
      Compilation.result, bind, Except.bind, pure, Except.pure]
  · rw [Automaton.accepts_withSink_iff hchain.wellFormed
      (Automaton.toNat_greatestVertex_determinize_lt hfew)]
    exact (honly.determinize hfits).accepts_iff w

/-- A text with a repeated character and one outside the basic plane is compiled to its spelling. -/
theorem compile_literal_repetition :
    "😀a😀" ≠ "" ∧ 2 * "😀a😀".length ≤ UInt32.size ∧
      ∃ D, (literal "😀a😀").compile = .ok D ∧ D.SpellsOut ['😀', 'a', '😀'] ∧
        (∀ B : Automaton, B.SpellsOut ['😀', 'a', '😀'] → B = D) ∧
        ∀ w, D.Accepts w ↔ w = ['😀', 'a', '😀'] := by
  have hne : "😀a😀" ≠ "" := by decide
  have hsize : 2 * "😀a😀".length ≤ UInt32.size := by decide
  exact ⟨hne, hsize, compile_literal "😀a😀" hne hsize⟩

end Expression

end Recognizer
