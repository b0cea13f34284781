import Std.Data.ExtTreeMap
import Std.Data.ExtTreeSet

/-!
# Vertices, symbols and transitions

The vocabulary of finite automata. A vertex is a 32 bit identifier, a symbol is a character or
`none`, the silent symbol that spells nothing, and a transition leads from a source to a target on
a symbol. Vertices are a type parameter of `Transition`, since a document may name them by labels.

Every order that a reader can observe is the one defined here: the silent symbol comes before all
characters, characters are ordered by code point, and transitions by source, symbol and target.
-/

namespace Recognizer

open Std

/-- A vertex identifier. -/
abbrev Vertex := UInt32

/-- The label of a transition: a character, or `none` for a silent step. -/
abbrev Symbol := Option Char

/-- A step from `source` to `target` on `symbol`. -/
structure Transition (ν : Type) where
  source : ν
  symbol : Symbol
  target : ν
deriving DecidableEq

namespace Transition

/-- The transition between the images of both ends. -/
def rename {ν μ : Type} (f : ν → μ) (t : Transition ν) : Transition μ :=
  ⟨f t.source, t.symbol, f t.target⟩

variable {ν : Type} [Ord ν]

instance : Ord (Transition ν) where
  compare := compareLex (compareOn source) (compareLex (compareOn symbol) (compareOn target))

instance [TransOrd ν] : TransOrd (Transition ν) :=
  inferInstanceAs (TransCmp (compareLex (compareOn source) _))

/-- Transitions that compare equal agree in all three parts. -/
theorem eq_of_compare_eq [LawfulEqOrd ν] {a b : Transition ν} (h : compare a b = .eq) : a = b := by
  change compareLex _ _ a b = .eq at h
  simp only [compareLex_eq_eq, compareOn] at h
  obtain ⟨hsource, hsymbol, htarget⟩ := h
  cases a
  cases b
  simp_all

instance [LawfulEqOrd ν] : LawfulEqOrd (Transition ν) where
  compare_self {a} := by
    change compareLex _ _ a a = .eq
    simp [compareLex_eq_eq, compareOn]
  eq_of_compare := eq_of_compare_eq

end Transition

end Recognizer
