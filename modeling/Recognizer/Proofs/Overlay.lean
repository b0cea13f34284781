import Mathlib.Logic.Basic
import Recognizer.Automaton.Path
import Recognizer.Proofs.Import

/-!
# Imports as unions

Whatever the map, an import gives the receiver together with the image of the imported automaton and
nothing else (`isUnionAlong_importAlong`). Vertices with one image become one vertex, which has the
transitions of all of them. As nothing is taken away, paths stay paths, so every vertex still accepts
what it did.

Importing what has been imported into something else is the same as importing one after the other,
along the composite map (`importAlong_importAlong`). A shared import is the case where vertices stay
where they are; it lays one automaton over the other. So it does not matter in which order automata are
laid over one another, except for the start, which is always that of the first
(`importAlong_unites`).
-/

namespace Recognizer

open Std

namespace Automaton

variable {A B C : Automaton} {f g : Vertex → Vertex} {p q : Vertex} {w : List Char}

/-! ### Unions along a map -/

/-- `C` has what `A` has and the images of what `B` has, and starts where `A` does. -/
structure IsUnionAlong (C : Automaton) (f : Vertex → Vertex) (A B : Automaton) : Prop where
  start_eq : C.start = A.start
  contains_iff : ∀ q, C.contains q = true ↔
    A.contains q = true ∨ ∃ p, B.contains p = true ∧ f p = q
  isFinish_iff : ∀ q, C.isFinish q = true ↔
    A.isFinish q = true ∨ ∃ p, B.isFinish p = true ∧ f p = q
  mem_transitions_iff : ∀ t, t ∈ C.transitions ↔
    t ∈ A.transitions ∨ ∃ u ∈ B.transitions, u.rename f = t

/-- An import gives just the union. -/
theorem isUnionAlong_importAlong : (A.importAlong B f).IsUnionAlong f A B where
  start_eq := start_importAlong
  contains_iff _ := contains_importAlong
  isFinish_iff _ := isFinish_importAlong
  mem_transitions_iff t := by
    rw [mem_transitions_iff, mem_successors_importAlong, ← mem_transitions_iff]
    apply or_congr_right
    constructor
    · rintro ⟨p, m, hm, hsource, htarget⟩
      exact ⟨⟨p, t.symbol, m⟩, mem_transitions_iff.2 hm, by rw [Transition.rename, hsource, htarget]⟩
    · rintro ⟨u, hu, rfl⟩
      exact ⟨u.source, u.target, mem_transitions_iff.1 hu, rfl, rfl⟩

namespace IsUnionAlong

variable (h : C.IsUnionAlong f A B)
include h

/-- The paths of the receiver are still there. -/
theorem path_receiver (hpath : A.Path q w p) : C.Path q w p := by
  refine hpath.mono fun q s r hr => ?_
  have ht : ⟨q, s, r⟩ ∈ A.transitions := Automaton.mem_transitions_iff.2 hr
  exact Automaton.mem_transitions_iff.1 ((h.mem_transitions_iff _).2 (Or.inl ht))

/-- The images of imported paths are paths. -/
theorem path_imported (hpath : B.Path q w p) : C.Path (f q) w (f p) := by
  induction hpath with
  | nil q => exact .nil (f q)
  | @step q r _ s _ first _ ih =>
    have ht : ⟨q, s, r⟩ ∈ B.transitions := Automaton.mem_transitions_iff.2 first
    have himage := (h.mem_transitions_iff _).2 (Or.inr ⟨_, ht, rfl⟩)
    exact .step (Automaton.mem_transitions_iff.1 himage) ih

/-- A vertex of the receiver accepts no less than before. -/
theorem acceptsFrom_receiver (hw : A.AcceptsFrom q w) : C.AcceptsFrom q w := by
  obtain ⟨p, hp, hpath⟩ := hw
  exact ⟨p, (h.isFinish_iff p).2 (Or.inl hp), h.path_receiver hpath⟩

/-- The image of an imported vertex accepts no less than the vertex. -/
theorem acceptsFrom_imported (hw : B.AcceptsFrom q w) : C.AcceptsFrom (f q) w := by
  obtain ⟨p, hp, hpath⟩ := hw
  exact ⟨f p, (h.isFinish_iff (f p)).2 (Or.inr ⟨p, hp, rfl⟩), h.path_imported hpath⟩

end IsUnionAlong

/-! ### One import after the other -/

/-- An automaton that holds an import is imported like its two parts in turn. -/
theorem importAlong_importAlong :
    A.importAlong (B.importAlong C g) f = (A.importAlong B f).importAlong C (f ∘ g) := by
  refine ext_of_hasEntry rfl (fun q => ?_) (fun q => ?_) (fun q s => ?_) fun q s => ?_
  · rw [Bool.eq_iff_iff]
    simp only [contains_importAlong, or_and_right, exists_or, exists_exists_and_eq_and, or_assoc,
      Function.comp_apply]
  · rw [Bool.eq_iff_iff]
    simp only [isFinish_importAlong, or_and_right, exists_or, exists_exists_and_eq_and, or_assoc,
      Function.comp_apply]
  · rw [Bool.eq_iff_iff]
    simp only [hasEntry_importAlong, or_and_right, exists_or, exists_exists_and_eq_and, or_assoc,
      Function.comp_apply]
  · refine ExtTreeSet.ext_mem fun r => ?_
    simp only [mem_successors_importAlong, or_and_right, exists_or, or_assoc, Function.comp_apply]
    grind

/-- The automaton `A` with `B` laid over it: equal identifiers denote the same vertex. -/
def overlay (A B : Automaton) : Automaton :=
  A.importAlong B id

/-- A shared import is an overlay, and never fails. -/
theorem importUnder_shared_eq_overlay : A.importUnder B .shared = .ok (0, A.overlay B) := by
  have hid : (fun q : Vertex => q + 0) = id := funext UInt32.add_zero
  rw [importUnder_shared_eq, hid, overlay]

/-- The grouping of overlays does not matter. -/
theorem overlay_assoc : (A.overlay B).overlay C = A.overlay (B.overlay C) :=
  importAlong_importAlong.symm

/-- The vertices of an overlay are those of both layers. -/
@[simp]
theorem contains_overlay :
    (A.overlay B).contains q = true ↔ A.contains q = true ∨ B.contains q = true := by
  simp [overlay]

/-- The finishes of an overlay are those of both layers. -/
@[simp]
theorem isFinish_overlay :
    (A.overlay B).isFinish q = true ↔ A.isFinish q = true ∨ B.isFinish q = true := by
  simp [overlay]

/-- The entries of an overlay are those of both layers. -/
@[simp]
theorem hasEntry_overlay {s : Symbol} :
    (A.overlay B).hasEntry q s = true ↔ A.hasEntry q s = true ∨ B.hasEntry q s = true := by
  simp [overlay]

/-- The transitions of an overlay are those of both layers. -/
@[simp]
theorem mem_successors_overlay {s : Symbol} :
    p ∈ (A.overlay B).successors q s ↔ p ∈ A.successors q s ∨ p ∈ B.successors q s := by
  simp [overlay]

/-- An automaton that is laid over itself stays as it is. -/
theorem overlay_self : A.overlay A = A := by
  refine ext_of_hasEntry rfl (fun q => ?_) (fun q => ?_) (fun q s => ?_) fun q s => ?_
  · rw [Bool.eq_iff_iff, contains_overlay, or_self]
  · rw [Bool.eq_iff_iff, isFinish_overlay, or_self]
  · rw [Bool.eq_iff_iff, hasEntry_overlay, or_self]
  · exact ExtTreeSet.ext_mem fun r => by rw [mem_successors_overlay, or_self]

/-- Only the start tells which of the two was there first. -/
theorem overlay_comm : { A.overlay B with start := B.start } = B.overlay A := by
  refine ext_of_hasEntry rfl (fun q => ?_) (fun q => ?_) (fun q s => ?_) fun q s => ?_
  · change (A.overlay B).contains q = _
    rw [Bool.eq_iff_iff, contains_overlay, contains_overlay, or_comm]
  · change (A.overlay B).isFinish q = _
    rw [Bool.eq_iff_iff, isFinish_overlay, isFinish_overlay, or_comm]
  · change (A.overlay B).hasEntry q s = _
    rw [Bool.eq_iff_iff, hasEntry_overlay, hasEntry_overlay, or_comm]
  · change (A.overlay B).successors q s = _
    exact ExtTreeSet.ext_mem fun r => by
      rw [mem_successors_overlay, mem_successors_overlay, or_comm]

/-- An import along any map gives the receiver and the image of the imported automaton, and nothing
else. From each vertex of the receiver, and from the image of each imported vertex, no less is accepted
than before. A shared import is an overlay, and overlays are idempotent and associative, and
commutative but for the start. -/
theorem importAlong_unites (A B : Automaton) (f : Vertex → Vertex) :
    (A.importAlong B f).IsUnionAlong f A B ∧
      (∀ q w, A.AcceptsFrom q w → (A.importAlong B f).AcceptsFrom q w) ∧
      (∀ q w, B.AcceptsFrom q w → (A.importAlong B f).AcceptsFrom (f q) w) ∧
      A.importUnder B .shared = .ok (0, A.overlay B) ∧ (A.overlay B).IsUnionAlong id A B ∧
      A.overlay A = A ∧ { A.overlay B with start := B.start } = B.overlay A ∧
      ∀ C : Automaton, (A.overlay B).overlay C = A.overlay (B.overlay C) := by
  have hunion : (A.importAlong B f).IsUnionAlong f A B := isUnionAlong_importAlong
  exact ⟨hunion, fun _ _ => hunion.acceptsFrom_receiver, fun _ _ => hunion.acceptsFrom_imported,
    importUnder_shared_eq_overlay, isUnionAlong_importAlong, overlay_self, overlay_comm,
    fun _ => overlay_assoc⟩

end Automaton

end Recognizer
