import Mathlib.Order.Bounds.Defs
import Recognizer.Automaton.ClosureSearch
import Recognizer.Proofs.SilentSteps
import Recognizer.Proofs.TransitionList

/-!
# The search for a closure ends with the least closed set

A vertex has been met when it is visited or waits on the stack. A move that visits a vertex adds the
targets of its silent steps to the met vertices, and any other move leaves them as they are
(`hasMet_visit`, `hasMet_rest`). So all met vertices can be reached, and whatever a silent step of a
visited vertex leads to has been met. This is the invariant of the search (`IsSearchFrom`). Once the
stack is empty, met and visited are the same, and the visited vertices are the closure.

The stack may grow with a move, but then a new vertex is visited and its silent steps are used up for
good. Hence the steps not yet used and the stack together get fewer with every move, and no more moves
are made than there are starting vertices and silent steps (`exists_after?_closureFrom`).

Main statement: `closureFrom_exact`.
-/

namespace Recognizer

open Std Automaton

namespace ClosureSearch

variable {A : Automaton} {S T : ClosureSearch} {p q r : Vertex} {qs rest : List Vertex} {n : Nat}

/-! ### What a move does -/

/-- The vertex has been visited, or it waits on the stack. -/
def HasMet (S : ClosureSearch) (r : Vertex) : Prop :=
  r ∈ S.visited ∨ r ∈ S.stack

/-- A visit adds the visited vertex. -/
@[simp]
theorem mem_visited_visit : r ∈ (visit A S q rest).visited ↔ r = q ∨ r ∈ S.visited := by
  simp [visit, eq_comm (a := r)]

/-- A visit puts on the stack what the vertex leads to silently and was not visited. -/
@[simp]
theorem mem_stack_visit :
    r ∈ (visit A S q rest).stack ↔
      (r ∈ A.successors q none ∧ r ≠ q ∧ r ∉ S.visited) ∨ r ∈ rest := by
  simp [visit, ne_comm (a := r)]

/-- A move takes the top off the stack. Either that is all, or the vertex was new and is visited. -/
theorem next?_eq_some (h : next? A S = some T) :
    ∃ q rest, S.stack = q :: rest ∧ ((q ∈ S.visited ∧ T = { S with stack := rest }) ∨
      (q ∉ S.visited ∧ T = visit A S q rest)) := by
  cases hstack : S.stack with
  | nil =>
    rw [next?, hstack] at h
    cases h
  | cons q rest =>
    refine ⟨q, rest, rfl, ?_⟩
    by_cases hq : q ∈ S.visited
    · simp only [next?, hstack, if_pos hq, Option.some.injEq] at h
      exact Or.inl ⟨hq, h.symm⟩
    · simp only [next?, hstack, if_neg hq, Option.some.injEq] at h
      exact Or.inr ⟨hq, h.symm⟩

/-- There is a move unless the stack is empty. -/
theorem exists_next? (hstack : S.stack ≠ []) : ∃ T, next? A S = some T := by
  obtain ⟨q, rest, hcons⟩ := List.exists_cons_of_ne_nil hstack
  rw [next?, hcons]
  by_cases hq : q ∈ S.visited
  · exact ⟨_, if_pos hq⟩
  · exact ⟨_, if_neg hq⟩

/-- Nothing is forgotten when a vertex that was visited before is taken off. -/
theorem hasMet_rest (hstack : S.stack = q :: rest) (hq : q ∈ S.visited) :
    HasMet { S with stack := rest } r ↔ S.HasMet r := by
  simp only [HasMet, hstack, List.mem_cons]
  apply Iff.intro
  · exact Or.imp_right Or.inr
  · intro hr
    rcases hr with hr | rfl | hr
    · exact Or.inl hr
    · exact Or.inl hq
    · exact Or.inr hr

/-- By a visit just the targets of the silent steps of that vertex are met in addition. -/
theorem hasMet_visit (hstack : S.stack = q :: rest) :
    (visit A S q rest).HasMet r ↔ S.HasMet r ∨ r ∈ A.successors q none := by
  simp only [HasMet, mem_visited_visit, mem_stack_visit, hstack, List.mem_cons]
  by_cases hq : r = q
  · simp [hq]
  · by_cases hr : r ∈ S.visited
    · simp [hr]
    · simp [hq, hr, or_comm]

/-! ### The invariant -/

/-- What has been met is reachable from the given vertices, these have been met, and so have the
targets of the silent steps of all visited vertices. -/
structure IsSearchFrom (A : Automaton) (qs : List Vertex) (S : ClosureSearch) : Prop where
  reaches : ∀ r, S.HasMet r → ∃ q ∈ qs, A.SilentlyReaches q r
  hasMet_of_mem : ∀ q ∈ qs, S.HasMet q
  hasMet_of_visited : ∀ q ∈ S.visited, ∀ r ∈ A.successors q none, S.HasMet r

/-- Before the first move the given vertices have been met and no others. -/
theorem isSearchFrom_initial : IsSearchFrom A qs (initial qs) where
  reaches r hr := ⟨r, by simpa [HasMet, initial] using hr, .refl⟩
  hasMet_of_mem q hq := Or.inr (List.mem_reverse.2 hq)
  hasMet_of_visited q hq := absurd hq (by simp [initial])

/-- A move keeps the invariant. -/
theorem IsSearchFrom.next? (h : IsSearchFrom A qs S) (hnext : next? A S = some T) :
    IsSearchFrom A qs T := by
  obtain ⟨q, rest, hstack, ⟨hq, rfl⟩ | ⟨_, rfl⟩⟩ := next?_eq_some hnext
  · have hmet (r : Vertex) := hasMet_rest (r := r) hstack hq
    exact ⟨fun r hr => h.reaches r ((hmet r).1 hr), fun p hp => (hmet p).2 (h.hasMet_of_mem p hp),
      fun p hp r hr => (hmet r).2 (h.hasMet_of_visited p hp r hr)⟩
  · have hmet (r : Vertex) := hasMet_visit (A := A) (r := r) hstack
    refine ⟨fun r hr => ?_, fun p hp => (hmet p).2 (Or.inl (h.hasMet_of_mem p hp)),
      fun p hp r hr => (hmet r).2 ?_⟩
    · rcases (hmet r).1 hr with hr | hr
      · exact h.reaches r hr
      · have hq : S.HasMet q := Or.inr (hstack ▸ List.mem_cons_self)
        obtain ⟨p, hp, hreach⟩ := h.reaches q hq
        exact ⟨p, hp, hreach.tail hr⟩
    · rcases mem_visited_visit.1 hp with rfl | hp
      · exact Or.inr hr
      · exact Or.inl (h.hasMet_of_visited p hp r hr)

/-- Any number of moves keeps the invariant. -/
theorem IsSearchFrom.after? (h : IsSearchFrom A qs S) (hafter : after? A n S = some T) :
    IsSearchFrom A qs T := by
  induction n generalizing S with
  | zero =>
    cases hafter
    exact h
  | succ n ih =>
    obtain ⟨S', hnext, hrest⟩ := Option.bind_eq_some_iff.1 hafter
    exact ih (h.next? hnext) hrest

/-- When the stack is empty, the closure has been visited. -/
theorem IsSearchFrom.eq_of_stack_eq_nil (h : IsSearchFrom A qs S) (hstack : S.stack = []) :
    S = { stack := [], visited := A.closureFrom qs } := by
  have hvisited {r : Vertex} (hr : S.HasMet r) : r ∈ S.visited := by
    simpa [HasMet, hstack] using hr
  have heq : S.visited = A.closureFrom qs := by
    refine ExtTreeSet.ext_mem fun r => ?_
    rw [mem_closureFrom]
    apply Iff.intro
    · intro hr
      exact h.reaches r (Or.inl hr)
    · intro hreach
      obtain ⟨q, hq, hreach⟩ := hreach
      induction hreach with
      | refl => exact hvisited (h.hasMet_of_mem q hq)
      | tail _ hstep ih => exact hvisited (h.hasMet_of_visited _ ih _ hstep)
  rw [← heq, ← hstack]

/-! ### The number of moves -/

/-- The silent steps of vertices not yet visited and the vertices on the stack: at most so many moves
are left. -/
def movesLeft (A : Automaton) (S : ClosureSearch) : Nat :=
  A.unusedSteps S.visited + S.stack.length

/-- A move uses up at least one of the moves left. -/
theorem movesLeft_lt_of_next? (h : next? A S = some T) : movesLeft A T < movesLeft A S := by
  obtain ⟨q, rest, hstack, ⟨_, rfl⟩ | ⟨hq, rfl⟩⟩ := next?_eq_some h
  · simp only [movesLeft, hstack, List.length_cons]
    omega
  · have hused := A.unusedSteps_insert_le hq
    have hpushed := List.length_filter_le (fun r => decide (r ∉ S.visited.insert q))
      (A.epsilonSuccessors q)
    simp only [movesLeft, visit, hstack, List.length_append, List.length_reverse, List.length_cons]
    omega

/-- The stack gets empty. -/
theorem exists_after?_stack_eq_nil (A : Automaton) (S : ClosureSearch) :
    ∃ n ≤ movesLeft A S, ∃ T, after? A n S = some T ∧ T.stack = [] := by
  induction hmoves : movesLeft A S using Nat.strong_induction_on generalizing S with
  | h m ih =>
    by_cases hstack : S.stack = []
    · exact ⟨0, Nat.zero_le m, S, rfl, hstack⟩
    · obtain ⟨S', hnext⟩ := exists_next? (A := A) hstack
      have hlt : movesLeft A S' < m := hmoves ▸ movesLeft_lt_of_next? hnext
      obtain ⟨n, hn, T, hafter, hempty⟩ := ih _ hlt S' rfl
      refine ⟨n + 1, Nat.lt_of_le_of_lt hn hlt, T, ?_, hempty⟩
      rw [after?, hnext, Option.bind_some, hafter]

/-- A move can as well be split off at the end. -/
theorem after?_succ (A : Automaton) (n : Nat) (S : ClosureSearch) :
    after? A (n + 1) S = (after? A n S).bind (ClosureSearch.next? A) := by
  induction n generalizing S with
  | zero => simp [after?]
  | succ n ih =>
    rw [after?, after?, Option.bind_assoc]
    exact Option.bind_congr fun S' _ => ih S'

end ClosureSearch

namespace Automaton

open ClosureSearch

variable {A : Automaton} {q r : Vertex} {qs rs : List Vertex}

/-! ### How many moves there are -/

/-- The silent steps of the listed vertices. -/
def silentStepsFrom (A : Automaton) (qs : List Vertex) : List (Transition Vertex) :=
  qs.flatMap fun q => (A.epsilonSuccessors q).map (⟨q, none, ·⟩)

/-- The silent steps from a list are those whose source is listed. -/
theorem mem_silentStepsFrom {t : Transition Vertex} :
    t ∈ A.silentStepsFrom qs ↔ t.source ∈ qs ∧ t ∈ A.transitions ∧ t.symbol = none := by
  obtain ⟨source, symbol, target⟩ := t
  simp only [silentStepsFrom, List.mem_flatMap, List.mem_map, mem_epsilonSuccessors,
    Transition.mk.injEq, mem_transitions_iff]
  apply Iff.intro
  · intro h
    obtain ⟨q, hq, r, hr, rfl, rfl, rfl⟩ := h
    exact ⟨hq, hr, rfl⟩
  · intro h
    obtain ⟨hsource, htarget, rfl⟩ := h
    exact ⟨source, hsource, target, htarget, rfl, rfl, rfl⟩

/-- From distinct vertices each silent step is listed once. -/
theorem nodup_silentStepsFrom (h : qs.Nodup) : (A.silentStepsFrom qs).Nodup := by
  refine List.nodup_flatMap.2 ⟨fun q _ => ?_, h.imp fun hne t ht ht' => ?_⟩
  · refine List.Nodup.map (fun r r' heq => ?_) (VertexSet.nodup_toList _)
    simpa using heq
  · obtain ⟨_, _, rfl⟩ := List.mem_map.1 ht
    obtain ⟨_, _, heq⟩ := List.mem_map.1 ht'
    exact hne (congrArg Transition.source heq).symm

/-- As long as nothing is seen, all silent steps of the listed vertices are unused. -/
theorem unusedStepsFrom_empty : A.unusedStepsFrom ∅ qs = (A.silentStepsFrom qs).length := by
  induction qs with
  | nil => rfl
  | cons q rest ih =>
    rw [silentStepsFrom, List.flatMap_cons, List.length_append, ← silentStepsFrom, ← ih]
    simp [unusedStepsFrom]

/-- As long as nothing is seen, all silent steps of the automaton are unused. -/
theorem unusedSteps_empty : A.unusedSteps ∅ = A.transitions.countP (·.symbol.isNone) := by
  have hvertices : A.vertices.Nodup := ExtTreeMap.nodup_keys
  have hmem (t : Transition Vertex) :
      t ∈ A.silentStepsFrom A.vertices ↔ t ∈ A.transitions.filter (·.symbol.isNone) := by
    rw [mem_silentStepsFrom, mem_vertices, List.mem_filter, Option.isNone_iff_eq_none]
    refine and_iff_right_of_imp fun ht => ?_
    exact contains_of_mem_successors (mem_transitions_iff.1 ht.1)
  have hperm := (List.perm_ext_iff_of_nodup (nodup_silentStepsFrom hvertices)
    (A.nodup_transitions.filter _)).2 hmem
  rw [unusedSteps, unusedStepsFrom_empty, hperm.length_eq, List.countP_eq_length_filter]

/-- The search ends with the closure, after no more moves than there are starting vertices and silent
steps. -/
theorem exists_after?_closureFrom (A : Automaton) (qs : List Vertex) :
    ∃ n ≤ qs.length + A.transitions.countP (·.symbol.isNone),
      after? A n (initial qs) = some { stack := [], visited := A.closureFrom qs } := by
  obtain ⟨n, hn, T, hafter, hempty⟩ := exists_after?_stack_eq_nil A (initial qs)
  have hend := (isSearchFrom_initial.after? hafter).eq_of_stack_eq_nil hempty
  refine ⟨n, ?_, hafter.trans (congrArg some hend)⟩
  rw [movesLeft, initial, unusedSteps_empty, List.length_reverse] at hn
  omega

/-! ### The laws of closures -/

/-- The closure holds the given vertices. -/
theorem mem_closureFrom_of_mem (h : q ∈ qs) : q ∈ A.closureFrom qs :=
  mem_closureFrom.2 ⟨q, h, .refl⟩

/-- Silent steps do not lead out of the closure. -/
theorem mem_closureFrom_of_mem_successors (hq : q ∈ A.closureFrom qs)
    (hr : r ∈ A.successors q none) : r ∈ A.closureFrom qs := by
  obtain ⟨p, hp, hreach⟩ := mem_closureFrom.1 hq
  exact mem_closureFrom.2 ⟨p, hp, hreach.tail hr⟩

/-- A set holds the closure if it holds the given vertices and silent steps do not lead out of it. -/
theorem forall_mem_closureFrom {C : Set Vertex} (hmem : ∀ q ∈ qs, q ∈ C)
    (hclosed : ∀ q ∈ C, ∀ r ∈ A.successors q none, r ∈ C) : ∀ r ∈ A.closureFrom qs, r ∈ C :=
  forall_mem_closeOver (fun q hq r hr => hclosed q hq r (mem_epsilonSuccessors.1 hr)) hmem (by simp)

/-- What lies in the closure of `rs` has its own closure there. -/
theorem closureFrom_subset (h : ∀ q ∈ qs, q ∈ A.closureFrom rs) :
    ∀ r ∈ A.closureFrom qs, r ∈ A.closureFrom rs :=
  forall_mem_closureFrom (C := fun r => r ∈ A.closureFrom rs) h
    fun _ hq _ hr => mem_closureFrom_of_mem_successors hq hr

/-- A closure is its own closure. -/
theorem closureFrom_closureFrom :
    A.closureFrom (A.closureFrom qs).toList = A.closureFrom qs := by
  refine ExtTreeSet.ext_mem fun r => ⟨?_, fun hr => ?_⟩
  · exact closureFrom_subset (fun q hq => ExtTreeSet.mem_toList.1 hq) r
  · exact mem_closureFrom_of_mem (ExtTreeSet.mem_toList.2 hr)

/-- The closure of a list is the union of the closures of its members. -/
theorem closureFrom_eq_foldr_union :
    A.closureFrom qs = (qs.map A.closure).foldr (· ∪ ·) ∅ := by
  refine ExtTreeSet.ext_mem fun r => ?_
  rw [mem_closureFrom]
  induction qs with
  | nil => simp
  | cons q rest ih => simp [mem_closure, ← ih]

/-- Whatever vertices the search starts from, and however the automaton may be wired, it ends, after
no more moves than there are starting vertices and silent steps, and has then visited the closure.
The closure holds just what can be reached by silent steps from one of the starting vertices, and so
it is the least set that holds them and that no silent step leaves. Hence it grows with the starting
vertices, closing it again adds nothing, and it is the union of the closures of the single ones. -/
theorem closureFrom_exact (A : Automaton) (qs : List Vertex) :
    (∃ n ≤ qs.length + A.transitions.countP (·.symbol.isNone),
      after? A n (initial qs) = some { stack := [], visited := A.closureFrom qs } ∧
        after? A (n + 1) (initial qs) = none) ∧
      (∀ r, r ∈ A.closureFrom qs ↔ ∃ q ∈ qs, A.SilentlyReaches q r) ∧
      IsLeast {C : Set Vertex | (∀ q ∈ qs, q ∈ C) ∧ ∀ q ∈ C, ∀ r ∈ A.successors q none, r ∈ C}
        {r | r ∈ A.closureFrom qs} ∧
      (∀ rs, (∀ q ∈ qs, q ∈ rs) → ∀ r ∈ A.closureFrom qs, r ∈ A.closureFrom rs) ∧
      A.closureFrom (A.closureFrom qs).toList = A.closureFrom qs ∧
      A.closureFrom qs = (qs.map A.closure).foldr (· ∪ ·) ∅ := by
  refine ⟨?ends, fun r => mem_closureFrom, ⟨⟨?holds, ?closed⟩, ?least⟩, ?grows,
    closureFrom_closureFrom, closureFrom_eq_foldr_union⟩
  case ends =>
    obtain ⟨n, hn, hafter⟩ := exists_after?_closureFrom A qs
    refine ⟨n, hn, hafter, ?_⟩
    rw [after?_succ, hafter]
    rfl
  case holds => exact fun q hq => mem_closureFrom_of_mem hq
  case closed => exact fun q hq r hr => mem_closureFrom_of_mem_successors hq hr
  case least => exact fun C hC => forall_mem_closureFrom hC.1 hC.2
  case grows =>
    intro rs hsubset
    exact closureFrom_subset fun q hq => mem_closureFrom_of_mem (hsubset q hq)

/-- A cycle of three silent steps, and a letter out of it to another silent step. -/
def silentCycle : Automaton :=
  [⟨0, none, 1⟩, ⟨1, none, 2⟩, ⟨2, none, 0⟩, ⟨2, some 'a', 3⟩, ⟨3, none, 4⟩].foldl
    Automaton.insertTransition ((singleton 0).insertVertex 4)

/-- From a vertex of the cycle, given twice, and an identifier that is no vertex, the search visits
the cycle and that identifier. The closure of a longer list holds the cycle too. -/
theorem closureFrom_exact_silentCycle :
    (∃ n ≤ 7, after? silentCycle n (initial [2, 9, 2]) =
        some { stack := [], visited := silentCycle.closureFrom [2, 9, 2] }) ∧
      (∃ q ∈ [2, 9, 2], silentCycle.SilentlyReaches q 1) ∧
      (¬ ∃ q ∈ [2, 9, 2], silentCycle.SilentlyReaches q 4) ∧
      (∀ r ∈ silentCycle.closureFrom [2, 9, 2], r ∈ [0, 1, 2, 9]) ∧
      (∀ q ∈ ([2, 9, 2] : List Vertex), q ∈ [9, 3, 2]) ∧ 1 ∈ silentCycle.closureFrom [9, 3, 2] := by
  have hcount : silentCycle.transitions.countP (·.symbol.isNone) = 4 := by decide +kernel
  have hone : 1 ∈ silentCycle.closureFrom [2, 9, 2] := by decide +kernel
  have hfour : 4 ∉ silentCycle.closureFrom [2, 9, 2] := by decide +kernel
  have hsubset : ∀ q ∈ ([2, 9, 2] : List Vertex), q ∈ ([9, 3, 2] : List Vertex) := by simp
  have hstays : ∀ q ∈ ([0, 1, 2, 9] : List Vertex), ∀ r ∈ silentCycle.successors q none,
      r ∈ ([0, 1, 2, 9] : List Vertex) := by
    simp [silentCycle]
  obtain ⟨⟨n, hn, hafter, _⟩, hexact, ⟨_, hleast⟩, hgrows, _⟩ :=
    closureFrom_exact silentCycle [2, 9, 2]
  rw [hcount] at hn
  exact ⟨⟨n, hn, hafter⟩, (hexact 1).1 hone, fun h => hfour ((hexact 4).2 h),
    hleast (a := {r | r ∈ ([0, 1, 2, 9] : List Vertex)}) ⟨by simp, hstays⟩, hsubset,
    hgrows _ hsubset 1 hone⟩

end Automaton

end Recognizer
