import Mathlib.Computability.Language
import Recognizer.Expression.Basic

/-!
# The language of an expression

The words that an expression matches, given by the operations on languages that its operators name.
The language of an expression made from a list is that of its items in order
(`language_literal`).
-/

namespace Recognizer.Expression

open Computability

/-- The words that the expression matches. -/
def language : Expression → Language Char
  | atom (some c) => {[c]}
  | atom none => 1
  | seq l r => l.language * r.language
  | alt l r => l.language + r.language
  | star e => e.language∗

/-- An atom matches the text of its symbol only. -/
theorem mem_language_atom {s : Symbol} {w : List Char} :
    w ∈ (atom s).language ↔ w = s.toList := by
  cases s <;> rfl

/-- A sequence matches what its parts match one after the other. -/
theorem mem_language_seq {l r : Expression} {w : List Char} :
    w ∈ (seq l r).language ↔ ∃ u ∈ l.language, ∃ v ∈ r.language, u ++ v = w :=
  Language.mem_mul

/-- Concatenating further expressions concatenates further words. -/
theorem language_foldl_seq (e : Expression) (text : List Char) {u : List Char}
    (h : e.language = {u}) : ((text.map char).foldl seq e).language = {u ++ text} := by
  induction text generalizing e u with
  | nil => simpa using h
  | cons c rest ih =>
    have hsnoc : (seq e (char c)).language = {u ++ [c]} := by
      ext w
      rw [mem_language_seq, h, char]
      simp only [mem_language_atom]
      constructor
      · rintro ⟨_, rfl, _, rfl, rfl⟩
        rfl
      · rintro rfl
        exact ⟨u, rfl, [c], rfl, rfl⟩
    simpa using ih _ hsnoc

/-- A literal matches its text only. -/
theorem language_literal (text : String) : (literal text).language = {text.toList} := by
  rw [literal, seqOf]
  cases text.toList with
  | nil => rfl
  | cons c rest => exact language_foldl_seq (char c) rest rfl

end Recognizer.Expression
