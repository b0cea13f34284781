import Recognizer.NamedAutomaton.Lemmas
import Recognizer.Proofs.Import
import Recognizer.Proofs.Naming.LabelTable

/-!
# Adding vertices by name

Asking for the vertex of a name takes nothing away: what had a vertex and a label before has the same
ones afterwards (`Extends`). An import first adds the names of all imported vertices and then the
imported automaton along the map that keeps names (`unionByName_eq`).

Where every vertex has a label from a consistent table, names tell vertices apart, and adding names
keeps all of this as long as identifiers last for the labels (`IsLabelled.insertNames`). Then the
names that were asked for become names of vertices, and nothing else that can be seen by names
changes.
-/

namespace Recognizer

open Std

namespace NamedAutomaton

variable {L M N : NamedAutomaton} {label name : String} {names : List String} {q r : Vertex}

/-- Identifiers last for all labels. -/
def Fits (L : NamedAutomaton) : Prop :=
  L.labels.size ≤ UInt32.size

/-! ### Operations that only add -/

/-- `M` has the vertices and the labels of `L`, and perhaps more. -/
structure Extends (M L : NamedAutomaton) : Prop where
  labels : M.labels.Extends L.labels
  contains : ∀ q, L.automaton.contains q = true → M.automaton.contains q = true

namespace Extends

/-- A named automaton extends itself. -/
theorem refl (L : NamedAutomaton) : L.Extends L :=
  ⟨.refl _, fun _ h => h⟩

/-- An extension of an extension is one. -/
theorem trans (h : N.Extends M) (h' : M.Extends L) : N.Extends L :=
  ⟨h.labels.trans h'.labels, fun q hq => h.contains q (h'.contains q hq)⟩

/-- What an automaton with few enough labels extends has few enough as well. -/
theorem fits (h : M.Extends L) (hM : M.Fits) : L.Fits :=
  Nat.le_trans h.labels.size_le hM

/-- A labelled vertex keeps its name. -/
theorem name_eq (h : M.Extends L) (hq : (L.labels.labelOf? q).isSome = true) :
    M.name q = L.name q := by
  obtain ⟨label, hlabel⟩ := Option.isSome_iff_exists.1 hq
  rw [name, name, hlabel, h.labels.labelOf?_eq_some hlabel]

end Extends

/-- To look up a label is an extension. -/
theorem extends_vertex (L : NamedAutomaton) (label : String) : (L.vertex label).2.Extends L where
  labels := L.labels.extends_intern label
  contains _ hq := Automaton.contains_insertVertex.2 (Or.inr hq)

/-! ### Adding names -/

/-- Add a vertex for each of the names. -/
def insertNames (L : NamedAutomaton) (names : List String) : NamedAutomaton :=
  names.foldl (fun L name => (L.vertex name).2) L

/-- Names are inserted from the first on. -/
theorem insertNames_cons :
    L.insertNames (name :: names) = (L.vertex name).2.insertNames names := rfl

/-- To insert names is an extension. -/
theorem extends_insertNames (L : NamedAutomaton) (names : List String) :
    (L.insertNames names).Extends L := by
  induction names generalizing L with
  | nil => exact .refl L
  | cons name rest ih => exact (ih _).trans (L.extends_vertex name)

/-- To insert names leaves the start as it is. -/
@[simp]
theorem start_insertNames : (L.insertNames names).automaton.start = L.automaton.start := by
  induction names generalizing L with
  | nil => rfl
  | cons name rest ih => exact ih

/-- To insert names leaves the finishes as they are. -/
@[simp]
theorem isFinish_insertNames :
    (L.insertNames names).automaton.isFinish q = L.automaton.isFinish q := by
  induction names generalizing L with
  | nil => rfl
  | cons name rest ih => exact ih

/-- To insert names leaves the transitions as they are. -/
@[simp]
theorem successors_insertNames {s : Symbol} :
    (L.insertNames names).automaton.successors q s = L.automaton.successors q s := by
  induction names generalizing L with
  | nil => rfl
  | cons name rest ih => exact ih.trans Automaton.successors_insertVertex

/-- To insert names preserves well-formedness. -/
theorem wellFormed_insertNames (hL : L.automaton.WellFormed) (names : List String) :
    (L.insertNames names).automaton.WellFormed := by
  induction names generalizing L with
  | nil => exact hL
  | cons name rest ih => exact ih (hL.insertVertex _)

/-- The inserted names are interned in turn. -/
theorem labels_insertNames (L : NamedAutomaton) (names : List String) :
    (L.insertNames names).labels = L.labels.internAll names := by
  induction names generalizing L with
  | nil => rfl
  | cons name rest ih => exact ih _

/-- A name that was added has a vertex. -/
theorem exists_vertex?_insertNames (h : name ∈ names) :
    ∃ q, (L.insertNames names).labels.vertex? name = some q ∧
      (L.insertNames names).automaton.contains q = true := by
  induction names generalizing L with
  | nil => cases h
  | cons first rest ih =>
    rcases List.mem_cons.1 h with rfl | h
    · have hextends := extends_insertNames (L.vertex name).2 rest
      refine ⟨(L.vertex name).1, ?_, hextends.contains _ ?_⟩
      · exact hextends.labels.vertex?_eq_some _ _ (L.labels.vertex?_intern_self name)
      · exact Automaton.contains_insertVertex.2 (Or.inl rfl)
    · exact ih h

/-- The vertices are the old ones and those of the names that were added. -/
theorem contains_insertNames :
    (L.insertNames names).automaton.contains q = true ↔ L.automaton.contains q = true ∨
      ∃ name ∈ names, (L.insertNames names).labels.vertex? name = some q := by
  constructor
  · intro h
    induction names generalizing L with
    | nil => exact Or.inl h
    | cons first rest ih =>
      rcases ih h with hq | ⟨name, hname, hq⟩
      · rcases Automaton.contains_insertVertex.1 hq with rfl | hq
        · have hkept := (extends_insertNames (L.vertex first).2 rest).labels
          exact Or.inr ⟨first, List.mem_cons_self,
            hkept.vertex?_eq_some _ _ (L.labels.vertex?_intern_self first)⟩
        · exact Or.inl hq
      · exact Or.inr ⟨name, List.mem_cons_of_mem _ hname, hq⟩
  · rintro (hq | ⟨name, hname, hq⟩)
    · exact (extends_insertNames L names).contains q hq
    · obtain ⟨r, hr, hcontains⟩ := exists_vertex?_insertNames (L := L) hname
      rw [hq, Option.some.injEq] at hr
      exact hr ▸ hcontains

/-! ### Importing along names -/

/-- Where the vertices of `M` go when `M` is imported. -/
def importMap (L M : NamedAutomaton) (q : Vertex) : Vertex :=
  (L.insertNamesOf M).1[q]?.getD q

/-- Adding names one by one, the table lists the vertex that each has in the end. -/
theorem foldl_insertNamesOf (M : NamedAutomaton) (qs : List Vertex)
    (table : ExtTreeMap Vertex Vertex) (L : NamedAutomaton) :
    ∃ table' : ExtTreeMap Vertex Vertex,
      qs.foldl (fun (table, L) q => (table.insert q (L.vertex (M.name q)).1,
        (L.vertex (M.name q)).2)) (table, L) = (table', L.insertNames (qs.map M.name)) ∧
      ∀ q, table'[q]? =
        if q ∈ qs then (L.insertNames (qs.map M.name)).labels.vertex? (M.name q) else table[q]? := by
  induction qs generalizing table L with
  | nil => exact ⟨table, rfl, fun q => by simp⟩
  | cons p rest ih =>
    obtain ⟨table', hfold, htable⟩ := ih (table.insert p (L.vertex (M.name p)).1)
      (L.vertex (M.name p)).2
    refine ⟨table', hfold, fun q => ?_⟩
    rw [htable, List.map_cons, insertNames_cons]
    by_cases hrest : q ∈ rest
    · simp [hrest]
    · by_cases hq : q = p
      · have hkept := (extends_insertNames (L.vertex (M.name p)).2 (rest.map M.name)).labels
        have hp := hkept.vertex?_eq_some _ _ (L.labels.vertex?_intern_self (M.name p))
        rw [if_neg hrest, hq, if_pos List.mem_cons_self, hp, ExtTreeMap.getElem?_insert_self]
        rfl
      · simp [hrest, hq, ExtTreeMap.getElem?_insert, Ne.symm hq]

/-- The receiver with a vertex for the name of each vertex of `M`. -/
def withNamesOf (L M : NamedAutomaton) : NamedAutomaton :=
  L.insertNames (M.automaton.vertices.map M.name)

/-- An import adds the names of the imported vertices, and then the imported automaton along the map
that keeps names. -/
theorem unionByName_eq (L M : NamedAutomaton) :
    L.unionByName M = { L.withNamesOf M with
      automaton := (L.withNamesOf M).automaton.importAlong M.automaton (L.importMap M) } := by
  obtain ⟨table, hfold, _⟩ := foldl_insertNamesOf M M.automaton.vertices ∅ L
  have hnames : (L.insertNamesOf M).2 = L.withNamesOf M := congrArg Prod.snd hfold
  rw [← hnames]
  rfl

/-- An import takes no labels but those of the names. -/
theorem labels_unionByName : (L.unionByName M).labels = (L.withNamesOf M).labels := by
  rw [unionByName_eq]

/-- A union names vertices as its left side does once it has the names of the right. -/
theorem name_unionByName : (L.unionByName M).name q = (L.withNamesOf M).name q := by
  rw [name, labels_unionByName, ← name]

/-- If a union has few enough labels, so has its left side with the names of the right. -/
theorem fits_withNamesOf (hfits : (L.unionByName M).Fits) : (L.withNamesOf M).Fits := by
  rwa [Fits, labels_unionByName] at hfits

/-- An imported vertex goes to the vertex of its name. -/
theorem vertex?_importMap (hq : M.automaton.contains q = true) :
    (L.withNamesOf M).labels.vertex? (M.name q) = some (L.importMap M q) ∧
      (L.withNamesOf M).automaton.contains (L.importMap M q) = true := by
  obtain ⟨table, hfold, htable⟩ := foldl_insertNamesOf M M.automaton.vertices ∅ L
  have hmem : M.name q ∈ M.automaton.vertices.map M.name :=
    List.mem_map_of_mem (Automaton.mem_vertices.2 hq)
  obtain ⟨r, hr, hcontains⟩ := exists_vertex?_insertNames (L := L) hmem
  have hlisted : (L.insertNamesOf M).1[q]? = some r := by
    have hfst : (L.insertNamesOf M).1 = table := congrArg Prod.fst hfold
    rw [hfst, htable, if_pos (Automaton.mem_vertices.2 hq), hr]
  have hmap : L.importMap M q = r := by
    rw [importMap, hlisted]
    rfl
  exact hmap ▸ ⟨hr, hcontains⟩

/-- The vertices after an import are those of the receiver and those for the imported names. -/
theorem contains_unionByName :
    (L.unionByName M).automaton.contains r = true ↔
      (L.withNamesOf M).automaton.contains r = true := by
  rw [unionByName_eq, Automaton.contains_importAlong]
  refine or_iff_left_of_imp ?_
  rintro ⟨q, hq, rfl⟩
  exact (vertex?_importMap hq).2

/-- A union extends its left side. -/
theorem extends_unionByName (L M : NamedAutomaton) : (L.unionByName M).Extends L := by
  have hnames : (L.withNamesOf M).Extends L := extends_insertNames L _
  refine ⟨?_, fun q hq => contains_unionByName.2 (hnames.contains q hq)⟩
  rw [labels_unionByName]
  exact hnames.labels

/-! ### What an import brings -/

/-- A union has the start of its left side. -/
theorem start_unionByName : (L.unionByName M).automaton.start = L.automaton.start := by
  rw [unionByName_eq, Automaton.start_importAlong, withNamesOf, start_insertNames]

/-- The finishes of a union are those of the left side and the images of those of the right side. -/
theorem isFinish_unionByName :
    (L.unionByName M).automaton.isFinish r = true ↔
      L.automaton.isFinish r = true ∨ ∃ q, M.automaton.isFinish q = true ∧ L.importMap M q = r := by
  rw [unionByName_eq, Automaton.isFinish_importAlong, withNamesOf, isFinish_insertNames]

/-- The transitions of a union are those of the left side and the images of those of the right side.
-/
theorem mem_successors_unionByName {s : Symbol} :
    r ∈ (L.unionByName M).automaton.successors q s ↔ r ∈ L.automaton.successors q s ∨
      ∃ p m, m ∈ M.automaton.successors p s ∧ L.importMap M p = q ∧ L.importMap M m = r := by
  rw [unionByName_eq, Automaton.mem_successors_importAlong, withNamesOf, successors_insertNames]

/-- The transitions after an import are the old ones and the images of the imported ones. -/
theorem mem_transitions_unionByName {u : Transition Vertex} :
    u ∈ (L.unionByName M).automaton.transitions ↔
      u ∈ L.automaton.transitions ∨
        ∃ v ∈ M.automaton.transitions, v.rename (L.importMap M) = u := by
  simp only [Automaton.mem_transitions_iff, mem_successors_unionByName]
  apply or_congr_right
  constructor
  · intro h
    obtain ⟨p, m, hm, hp, hr⟩ := h
    exact ⟨⟨p, u.symbol, m⟩, hm, by rw [Transition.rename, hp, hr]⟩
  · intro h
    obtain ⟨v, hv, rfl⟩ := h
    exact ⟨_, _, hv, rfl, rfl⟩

/-- A union of well-formed automata is well-formed. -/
theorem wellFormed_unionByName (hL : L.automaton.WellFormed) (hM : M.automaton.WellFormed) :
    (L.unionByName M).automaton.WellFormed := by
  rw [unionByName_eq]
  exact (wellFormed_insertNames hL _).importAlong hM _

/-! ### Labelled automata -/

/-- The automaton is well-formed, the table of labels is consistent, and every vertex has a label. -/
structure IsLabelled (L : NamedAutomaton) : Prop where
  wellFormed : L.automaton.WellFormed
  isConsistent : L.labels.IsConsistent
  isSome_labelOf? : ∀ q, L.automaton.contains q = true → (L.labels.labelOf? q).isSome = true

namespace IsLabelled

/-- The vertex of a name is the one that the table gives. -/
theorem name_eq_iff (hL : L.IsLabelled) (hq : L.automaton.contains q = true) :
    L.name q = name ↔ L.labels.vertex? name = some q := by
  obtain ⟨label, hlabel⟩ := Option.isSome_iff_exists.1 (hL.isSome_labelOf? q hq)
  rw [hL.isConsistent.vertex?_eq_some_iff, NamedAutomaton.name, hlabel, Option.getD_some,
    Option.some.injEq]

/-- Distinct vertices have distinct names. -/
theorem eq_of_name_eq (hL : L.IsLabelled) (hq : L.automaton.contains q = true)
    (hr : L.automaton.contains r = true) (h : L.name q = L.name r) : q = r := by
  have hname := (hL.name_eq_iff hr).1 rfl
  rw [← h, (hL.name_eq_iff hq).1 rfl, Option.some.injEq] at hname
  exact hname

/-- Another automaton with the same vertices may take the place of the old one. -/
theorem withAutomaton (hL : L.IsLabelled) {A : Automaton} (hA : A.WellFormed)
    (h : ∀ q, A.contains q = true ↔ L.automaton.contains q = true) :
    { L with automaton := A }.IsLabelled :=
  ⟨hA, hL.isConsistent, fun q hq => hL.isSome_labelOf? q ((h q).1 hq)⟩

/-- To look up a label keeps all vertices labelled. -/
theorem vertex (hL : L.IsLabelled) (hfits : (L.vertex label).2.Fits) :
    (L.vertex label).2.IsLabelled where
  wellFormed := hL.wellFormed.insertVertex _
  isConsistent := hL.isConsistent.intern hfits
  isSome_labelOf? q hq := (hL.isConsistent.isSome_labelOf?_intern hfits).2
    ((Automaton.contains_insertVertex.1 hq).imp_right (hL.isSome_labelOf? q))

/-- Names may be added as long as identifiers last. -/
theorem insertNames (hL : L.IsLabelled) (hfits : (L.insertNames names).Fits) :
    (L.insertNames names).IsLabelled := by
  induction names generalizing L with
  | nil => exact hL
  | cons name rest ih => exact ih (hL.vertex ((extends_insertNames _ rest).fits hfits)) hfits

/-- An imported vertex keeps its name. -/
theorem name_importMap (hL : L.IsLabelled) (hfits : (L.unionByName M).Fits)
    (hq : M.automaton.contains q = true) :
    (L.unionByName M).name (L.importMap M q) = M.name q := by
  have hnames : (L.withNamesOf M).IsLabelled := hL.insertNames (fits_withNamesOf hfits)
  obtain ⟨hvertex, hcontains⟩ := vertex?_importMap (L := L) hq
  rw [name_unionByName]
  exact (hnames.name_eq_iff hcontains).2 hvertex

/-- A well-formed automaton may be imported as long as identifiers last. -/
theorem unionByName (hL : L.IsLabelled) (hM : M.automaton.WellFormed)
    (hfits : (L.unionByName M).Fits) : (L.unionByName M).IsLabelled := by
  have hnames : (L.withNamesOf M).IsLabelled := hL.insertNames (fits_withNamesOf hfits)
  refine ⟨wellFormed_unionByName hL.wellFormed hM, ?_, fun q hq => ?_⟩
  · rw [labels_unionByName]
    exact hnames.isConsistent
  · rw [labels_unionByName]
    exact hnames.isSome_labelOf? q (contains_unionByName.1 hq)

/-! ### What can be seen by names -/

section Extends

variable (hL : L.IsLabelled) (h : M.Extends L)
include hL h

/-- An extension with the same start has the same name for it. -/
theorem startName_eq_of_extends (hstart : M.automaton.start = L.automaton.start) :
    M.startName = L.startName := by
  rw [startName, startName, hstart]
  exact h.name_eq (hL.isSome_labelOf? _ hL.wellFormed.contains_start)

/-- The finishes keep their names. -/
theorem mem_finishNames_iff_of_extends :
    name ∈ L.finishNames ↔ ∃ q, L.automaton.isFinish q = true ∧ M.name q = name := by
  rw [mem_finishNames]
  refine exists_congr fun q => and_congr_right fun hq => ?_
  rw [h.name_eq (hL.isSome_labelOf? q (hL.wellFormed.contains_finish q hq))]

/-- An extension with the same finishes has the same names for them. -/
theorem finishNames_eq_of_extends
    (hfinish : ∀ q, M.automaton.isFinish q = L.automaton.isFinish q) :
    M.finishNames = L.finishNames := by
  refine ExtTreeSet.ext_mem fun name => ?_
  rw [hL.mem_finishNames_iff_of_extends h, mem_finishNames]
  simp only [hfinish]

/-- The transitions keep the names of their ends. -/
theorem mem_transitionsByName_iff_of_extends {t : Transition String} :
    t ∈ L.transitionsByName ↔ ∃ u ∈ L.automaton.transitions, u.rename M.name = t := by
  rw [mem_transitionsByName]
  refine exists_congr fun u => and_congr_right fun hu => ?_
  obtain ⟨hsource, htarget⟩ := hL.wellFormed.contains_ends hu
  rw [Transition.rename, Transition.rename, h.name_eq (hL.isSome_labelOf? _ hsource),
    h.name_eq (hL.isSome_labelOf? _ htarget)]

/-- An extension with the same transitions has the same names for them. -/
theorem transitionsByName_eq_of_extends
    (hsuccessors : ∀ q s, M.automaton.successors q s = L.automaton.successors q s) :
    M.transitionsByName = L.transitionsByName := by
  refine ExtTreeSet.ext_mem fun t => ?_
  rw [hL.mem_transitionsByName_iff_of_extends h, mem_transitionsByName]
  simp only [Automaton.mem_transitions_iff, hsuccessors]

end Extends

/-- Adding names changes nothing but the names of vertices. -/
theorem finishNames_insertNames (hL : L.IsLabelled) :
    (L.insertNames names).finishNames = L.finishNames :=
  hL.finishNames_eq_of_extends (extends_insertNames L names) fun _ => isFinish_insertNames

/-- To insert names leaves the named transitions as they are. -/
theorem transitionsByName_insertNames (hL : L.IsLabelled) :
    (L.insertNames names).transitionsByName = L.transitionsByName :=
  hL.transitionsByName_eq_of_extends (extends_insertNames L names) fun _ _ =>
    successors_insertNames

/-- Inserted names become names of vertices. -/
theorem mem_vertexNames_insertNames (hL : L.IsLabelled) (hfits : (L.insertNames names).Fits) :
    name ∈ (L.insertNames names).vertexNames ↔ name ∈ L.vertexNames ∨ name ∈ names := by
  have hnames := hL.insertNames hfits
  have hextends := extends_insertNames L names
  rw [mem_vertexNames, mem_vertexNames]
  constructor
  · rintro ⟨q, hq, rfl⟩
    rcases contains_insertNames.1 hq with hold | ⟨added, hadded, hvertex⟩
    · exact Or.inl ⟨q, hold, (hextends.name_eq (hL.isSome_labelOf? q hold)).symm⟩
    · rw [(hnames.name_eq_iff hq).2 hvertex]
      exact Or.inr hadded
  · rintro (⟨q, hq, rfl⟩ | hadded)
    · exact ⟨q, hextends.contains q hq, hextends.name_eq (hL.isSome_labelOf? q hq)⟩
    · obtain ⟨q, hvertex, hq⟩ := exists_vertex?_insertNames (L := L) hadded
      exact ⟨q, hq, (hnames.name_eq_iff hq).2 hvertex⟩

end IsLabelled

end NamedAutomaton

end Recognizer
