import Recognizer.Automaton.WellFormed
import Recognizer.Proofs.Drawing.Reader

/-!
# Drawings lose nothing

In a drawing names and symbols stand next to fixed text, with nothing but quotes around them. In
names the quotes and backslashes are escaped by two replacements, symbols are escaped one by one.
Both come to the same (`escapeName_eq`, `symbolLabel_eq`), so the closing quote can be told from the
others, and a reader that knows only the layout finds the nodes with their names and shapes, the
start, and the edges with what their labels say (`read_graph`).

The automaton can be told from these. Finishes are vertices and so have a node; every transition has
an edge, and distinct symbols have labels that say different things (`symbolText_inj`).

Main statement: `drawing_faithful`.
-/

namespace Recognizer

open Automaton Text

namespace Drawing

variable {A B : Automaton} {name label label' : Vertex → List Char} {text : List Char}
variable {q : Vertex} {s s' : Symbol} {c d : Char} {m n : Nat} {t : Transition Vertex}

/-! ### Escapes -/

/-- To replace the backslashes first and the quotes then is to escape each character once: no quote
is replaced by anything with a backslash that is escaped again. -/
theorem escapeName_eq : escapeName text = text.flatMap escapeQuoted := by
  rw [escapeName, replaceChar, replaceChar, List.flatMap_assoc]
  refine List.flatMap_congr fun c _ => ?_
  rw [escapeQuoted]
  by_cases hbackslash : c = '\\'
  · subst hbackslash
    rfl
  · by_cases hquote : c = '"'
    · subst hquote
      rfl
    · simp [hbackslash, hquote]

/-- A text without quotes and backslashes is not changed. -/
theorem flatMap_escapeQuoted_eq_self (h : ∀ c ∈ text, c ≠ '"' ∧ c ≠ '\\') :
    text.flatMap escapeQuoted = text := by
  induction text with
  | nil => rfl
  | cons c text ih =>
    rw [List.forall_mem_cons] at h
    rw [List.flatMap_cons, ih h.2, escapeQuoted, if_neg (by simpa using h.1)]
    rfl

/-- Numbers need no escapes. -/
theorem flatMap_escapeQuoted_write : (Numeral.write q).flatMap escapeQuoted = Numeral.write q := by
  refine flatMap_escapeQuoted_eq_self fun c hc => ?_
  have hdigit := (Numeral.isDecimal_write q).isDigit c hc
  constructor <;> (rintro rfl; cases hdigit)

/-! ### Symbols -/

/-- Distinct digits are written differently. -/
theorem digitChar_inj : ∀ m < 16, ∀ n < 16, m.digitChar = n.digitChar → m = n := by
  decide

/-- Distinct numbers are written differently in hexadecimal. -/
theorem toDigits_inj (h : Nat.toDigits 16 m = Nat.toDigits 16 n) : m = n := by
  induction m using Nat.strongRecOn generalizing n with
  | ind m ih =>
    rw [Nat.toDigits_eq_if (by decide), Nat.toDigits_eq_if (n := n) (by decide)] at h
    by_cases hm : m < 16 <;> by_cases hn : n < 16
    · rw [if_pos hm, if_pos hn, List.cons.injEq] at h
      exact digitChar_inj m hm n hn h.1
    · -- One digit is not written like several.
      rw [if_pos hm, if_neg hn, List.singleton_eq_append_iff] at h
      simp [Nat.toDigits_ne_nil] at h
    · rw [if_neg hm, if_pos hn, List.append_eq_singleton_iff] at h
      simp [Nat.toDigits_ne_nil] at h
    · rw [if_neg hm, if_neg hn] at h
      obtain ⟨hfront, hlast⟩ := List.append_inj' h rfl
      have hdiv := ih (m / 16) (by omega) hfront
      have hmod := digitChar_inj _ (Nat.mod_lt m (by decide)) _ (Nat.mod_lt n (by decide))
        (List.cons.inj hlast).1
      omega

/-- Numbers are written in digits. -/
theorem exists_digitChar_of_mem_toDigits (h : c ∈ Nat.toDigits 16 n) :
    ∃ k : Nat, k.digitChar = c := by
  induction n using Nat.strongRecOn with
  | ind n ih =>
    rw [Nat.toDigits_eq_if (by decide)] at h
    split at h
    · exact ⟨n, (List.mem_singleton.1 h).symm⟩
    · rcases List.mem_append.1 h with hfront | hlast
      · exact ih (n / 16) (by omega) hfront
      · exact ⟨n % 16, (List.mem_singleton.1 hlast).symm⟩

/-- Distinct characters have distinct code points. -/
theorem codePoint_inj (h : codePoint c = codePoint d) : c = d := by
  have hdigits : Nat.toDigits 16 c.toNat = Nat.toDigits 16 d.toNat := by
    simpa [codePoint] using h
  exact Char.toNat_inj.1 (toDigits_inj hdigits)

/-- What the label of an edge says. -/
def symbolText : Symbol → List Char
  | none => ['ε']
  | some c => if isVisibleAscii c then [c] else codePoint c

/-- The label of an edge is what it says, escaped. -/
theorem symbolLabel_eq : symbolLabel s = (symbolText s).flatMap escapeQuoted := by
  cases s with
  | none => rfl
  | some c =>
    rw [symbolLabel, symbolText]
    split
    · simp
    · have hdigits : ∀ d ∈ Nat.toDigits 16 c.toNat ++ ['\x7d'], d ≠ '"' ∧ d ≠ '\\' := by
        intro d hd
        rcases List.mem_append.1 hd with hdigit | hbrace
        · obtain ⟨k, rfl⟩ := exists_digitChar_of_mem_toDigits hdigit
          exact ⟨Nat.digitChar_ne '"' (by decide), Nat.digitChar_ne '\\' (by decide)⟩
        · rw [List.mem_singleton.1 hbrace]
          decide
      change _ = '\\' :: '\\' :: 'u' :: '\x7b' ::
        (Nat.toDigits 16 c.toNat ++ ['\x7d']).flatMap escapeQuoted
      rw [flatMap_escapeQuoted_eq_self hdigits]
      rfl

/-- Distinct symbols have labels that say different things. A silent step is not confused with a
step on the letter epsilon, which is given by its code point. -/
theorem symbolText_inj (h : symbolText s = symbolText s') : s = s' := by
  have hsilent {c : Char} : symbolText none ≠ symbolText (some c) := by
    intro h
    rw [symbolText, symbolText] at h
    split at h
    · next hvisible =>
      -- The letter epsilon is not an ASCII character.
      obtain rfl := (List.cons.inj h).1
      cases hvisible
    · simp [codePoint] at h
  cases s <;> cases s'
  · rfl
  · exact absurd h hsilent
  · exact absurd h.symm hsilent
  · next c d =>
    simp only [symbolText] at h
    split at h <;> split at h
    · rw [(List.cons.inj h).1]
    · simp [codePoint] at h
    · simp [codePoint] at h
    · rw [codePoint_inj h]

/-! ### What is seen in a drawing -/

/-- The node of a vertex, with its name as it reads. -/
def nodeOf (A : Automaton) (label : Vertex → List Char) (q : Vertex) : Node where
  vertex := q
  label := label q
  shape := if A.isFinish q then "doublecircle".toList else "circle".toList

/-- The shape of a node shows whether its vertex is a finish. -/
theorem shape_nodeOf_iff :
    (nodeOf A label q).shape = "doublecircle".toList ↔ A.isFinish q = true := by
  rw [nodeOf]
  split <;> simp_all

/-- The nodes show the vertices. -/
theorem map_vertex_nodeOf {vertices : List Vertex} :
    (vertices.map (nodeOf A label)).map Node.vertex = vertices := by
  rw [List.map_map]
  exact List.map_id vertices

/-- The edge of a transition. -/
def edgeOf (t : Transition Vertex) : Edge where
  source := t.source
  target := t.target
  label := symbolText t.symbol

/-- An edge shows its transition. -/
theorem edgeOf_inj : Function.Injective edgeOf := by
  rintro ⟨q, s, r⟩ ⟨q', s', r'⟩ h
  obtain ⟨hsource, htarget, hlabel⟩ := Edge.mk.inj h
  exact Transition.mk.injEq .. ▸ ⟨hsource, symbolText_inj hlabel, htarget⟩

/-- What is to be seen of an automaton under the given names. -/
def picture (A : Automaton) (label : Vertex → List Char) : Picture where
  nodes := A.vertices.map (nodeOf A label)
  start := A.start
  edges := A.transitions.map edgeOf

open Reader

/-- The line of a node reads as the node, if the name in it is escaped. -/
theorem reads_nodeLine (hname : name q = (label q).flatMap escapeQuoted) :
    readNode.Reads (nodeLine A name q ++ ['\n']) (nodeOf A label q) := by
  have hline : nodeLine A name q ++ ['\n'] = "\tq".toList ++ (Numeral.write q ++ [' '] ++
      ("[label = \"".toList ++ ((label q).flatMap escapeQuoted ++ ['"'] ++ (", shape = ".toList ++
        ((nodeOf A label q).shape ++ [']'] ++ (['\n'] ++ [])))))) := by
    rw [nodeLine, hname, node, nodeOf]
    split <;> simp
  have hshape : ']' ∉ (nodeOf A label q).shape := by
    change ']' ∉ if A.isFinish q then "doublecircle".toList else "circle".toList
    split <;> decide
  rw [hline]
  exact reads_expect.bind ((reads_numeral rfl).bind (reads_expect.bind (reads_quoted.bind
    (reads_expect.bind ((reads_upTo hshape).bind (reads_expect.bind Reads.pure))))))

/-- The line of a transition reads as its edge. -/
theorem reads_edgeLine : readEdge.Reads (edgeLine t ++ ['\n']) (edgeOf t) := by
  have hline : edgeLine t ++ ['\n'] = "\tq".toList ++ (Numeral.write t.source ++ [' '] ++
      ("-> q".toList ++ (Numeral.write t.target ++ [' '] ++ ("[label = \"".toList ++
        ((symbolText t.symbol).flatMap escapeQuoted ++ ['"'] ++ ("]\n".toList ++ [])))))) := by
    simp [edgeLine, node, symbolLabel_eq]
  rw [hline]
  exact reads_expect.bind ((reads_numeral rfl).bind (reads_expect.bind ((reads_numeral rfl).bind
    (reads_expect.bind (reads_quoted.bind (reads_expect.bind Reads.pure))))))

/-- A drawing with escaped names reads as the picture. -/
theorem read_graph (hname : ∀ q, name q = (label q).flatMap escapeQuoted) :
    read (String.ofList (graph A name)) = some (picture A label) := by
  have hgraph : graph A name = "digraph \x7b\n\tstart [shape = point]\n".toList ++
      (A.vertices.flatMap (fun q => nodeLine A name q ++ ['\n']) ++ ("\tstart -> q".toList ++
        (Numeral.write A.start ++ ['\n'] ++
          (A.transitions.flatMap (fun t => edgeLine t ++ ['\n']) ++ (['\x7d'] ++ []))))) := by
    simp [graph, graphLines, node, List.flatMap_map]
  rw [read, String.toList_ofList, hgraph, readPicture, reads_expect.run_bind,
    run_many_bind (fun q => reads_nodeLine (hname q)) (by simp)
      (run_expect_bind_eq_none (by simp)),
    reads_expect.run_bind, (reads_numeral rfl).run_bind,
    run_many_bind (fun _ => reads_edgeLine) (by simp)
      (run_expect_bind_eq_none (by simp)),
    reads_expect.run_bind]
  rfl

/-- Well-formed automata that look the same are equal, and their vertices have the same names. -/
theorem eq_of_picture_eq (hA : A.WellFormed) (hB : B.WellFormed)
    (h : picture A label = picture B label') :
    A = B ∧ ∀ q, A.contains q = true → label q = label' q := by
  have hnodes : A.vertices.map (nodeOf A label) = B.vertices.map (nodeOf B label') :=
    congrArg Picture.nodes h
  have hstart : A.start = B.start := congrArg Picture.start h
  have hedges : A.transitions.map edgeOf = B.transitions.map edgeOf := congrArg Picture.edges h
  have hvertices : A.vertices = B.vertices := by
    have hmap := congrArg (List.map Node.vertex) hnodes
    rwa [map_vertex_nodeOf, map_vertex_nodeOf] at hmap
  have hcontains (q : Vertex) : A.contains q = B.contains q := by
    rw [Bool.eq_iff_iff, ← mem_vertices, ← mem_vertices, hvertices]
  rw [← hvertices] at hnodes
  have hnode {q : Vertex} (hq : A.contains q = true) : nodeOf A label q = nodeOf B label' q :=
    List.map_inj_left.1 hnodes q (mem_vertices.2 hq)
  have hfinish (q : Vertex) : A.isFinish q = B.isFinish q := by
    rw [Bool.eq_iff_iff]
    by_cases hq : A.contains q = true
    · rw [← shape_nodeOf_iff, ← shape_nodeOf_iff (A := B), hnode hq]
    · -- What is no vertex has no node, but is no finish either.
      exact iff_of_false (fun hfinish => hq (hA.contains_finish q hfinish))
        fun hfinish => hq (hcontains q ▸ hB.contains_finish q hfinish)
  have htransitions : A.transitions = B.transitions := List.map_injective_iff.2 edgeOf_inj hedges
  refine ⟨hA.ext hB hstart hcontains hfinish fun q s => Std.ExtTreeSet.ext_mem fun r => ?_,
    fun q hq => congrArg Node.label (hnode hq)⟩
  have hlisted : ⟨q, s, r⟩ ∈ A.transitions ↔ ⟨q, s, r⟩ ∈ B.transitions := by rw [htransitions]
  rwa [mem_transitions_iff, mem_transitions_iff] at hlisted

/-- The drawing of an automaton reads as what is to be seen of it, each vertex with its number. -/
theorem read_drawing (A : Automaton) : read A.drawing = some (picture A Numeral.write) :=
  read_graph fun _ => flatMap_escapeQuoted_write.symm

/-- The drawing of an automaton with names reads as what is to be seen of it, each vertex with its
name. -/
theorem read_drawing_named (L : NamedAutomaton) :
    read L.drawing = some (picture L.automaton fun q => (L.name q).toList) :=
  read_graph fun _ => escapeName_eq

/-- In a drawing each label is a closed string in quotes that says the name of the vertex or the
symbol of the transition, whatever characters these have. Well-formed automata with the same drawing
are equal, and if names are drawn, these are the same, too. -/
theorem drawing_faithful :
    (∀ A : Automaton, read A.drawing = some (picture A Numeral.write)) ∧
      (∀ L : NamedAutomaton,
        read L.drawing = some (picture L.automaton fun q => (L.name q).toList)) ∧
      (∀ A B : Automaton, A.WellFormed → B.WellFormed → A.drawing = B.drawing → A = B) ∧
      ∀ L M : NamedAutomaton, L.automaton.WellFormed → M.automaton.WellFormed →
        L.drawing = M.drawing →
          L.automaton = M.automaton ∧ ∀ q, L.automaton.contains q = true → L.name q = M.name q := by
  refine ⟨read_drawing, read_drawing_named, fun A B hA hB h => ?_, fun L M hL hM h => ?_⟩
  · have hread := read_drawing A
    rw [h, read_drawing, Option.some.injEq] at hread
    exact (eq_of_picture_eq hB hA hread).1.symm
  · have hread := read_drawing_named L
    rw [h, read_drawing_named, Option.some.injEq] at hread
    obtain ⟨hautomaton, hnames⟩ := eq_of_picture_eq hL hM hread.symm
    exact ⟨hautomaton, fun q hq => String.toList_inj.1 (hnames q hq)⟩

/-- Names with quotes, a backslash and a line break, on an automaton with the given transitions
between two vertices. -/
def oddNames (transitions : List (Transition Vertex)) : NamedAutomaton where
  automaton := transitions.foldl Automaton.insertTransition
    (((Automaton.singleton 0).insertVertex 1).insertFinish 1)
  labels := { labels := ["\"a\\b\"", "two\nlines"], index := ∅ }

/-- A silent step and steps on the letter epsilon and on a quote. -/
def oddSteps : List (Transition Vertex) :=
  [⟨0, none, 1⟩, ⟨0, some 'ε', 1⟩, ⟨1, some '"', 0⟩]

/-- The odd steps are drawn alike in any order, as they make one automaton. -/
theorem drawing_faithful_oddNames :
    (oddNames oddSteps).automaton.WellFormed ∧ (oddNames oddSteps.reverse).automaton.WellFormed ∧
      (oddNames oddSteps).drawing = (oddNames oddSteps.reverse).drawing ∧
      (oddNames oddSteps).automaton = (oddNames oddSteps.reverse).automaton ∧
      ∀ q, (oddNames oddSteps).automaton.contains q = true →
        (oddNames oddSteps).name q = (oddNames oddSteps.reverse).name q := by
  have hends : (((Automaton.singleton 0).insertVertex 1).insertFinish 1).WellFormed :=
    ((WellFormed.singleton 0).insertVertex 1).insertFinish (by decide)
  have hforward : (oddNames oddSteps).automaton.WellFormed :=
    WellFormed.foldl_insertTransition hends (by decide)
  have hbackward : (oddNames oddSteps.reverse).automaton.WellFormed :=
    WellFormed.foldl_insertTransition hends (by decide)
  have hdrawing : (oddNames oddSteps).drawing = (oddNames oddSteps.reverse).drawing := by
    rw [NamedAutomaton.drawing, NamedAutomaton.drawing, String.ofList_inj]
    decide +kernel
  exact ⟨hforward, hbackward, hdrawing,
    drawing_faithful.2.2.2 _ _ hforward hbackward hdrawing⟩

end Drawing

end Recognizer
