import Recognizer.Text.WhiteSpace

/-!
# Lines and fields

A text is a sequence of lines, each ended by a line feed or by a carriage return and a line feed;
the last line may lack its end, and then a carriage return belongs to the line. A line is a sequence
of fields separated by white space; a field is not empty and holds no white space (`mem_fields`).
-/

namespace Recognizer.Text

/-- The line without the carriage return of its end. -/
def dropCarriageReturn (line : List Char) : List Char :=
  if line.getLast? = some '\r' then line.dropLast else line

/-- The lines of a text. -/
def lines (text : List Char) : List (List Char) :=
  let pieces := text.splitOn '\n'
  let unfinished := pieces.getLast?.toList.filter fun line => !line.isEmpty
  pieces.dropLast.map dropCarriageReturn ++ unfinished

/-- The fields of a line. -/
def fields (line : List Char) : List (List Char) :=
  (line.splitOnP isWhiteSpace).filter fun field => !field.isEmpty

/-- The text before the first space and, if there is a space, the text after it. -/
def cutAtSpace (line : List Char) : List Char × Option (List Char) :=
  (line.takeWhile (· != ' '), (line.dropWhile (· != ' ')).tail?)

/-- A blank line has no field. -/
theorem fields_eq_nil_of_isBlank {line : List Char} (h : isBlank line = true) :
    fields line = [] := by
  induction line with
  | nil => simp [fields]
  | cons c rest ih =>
    simp only [isBlank, List.all_cons, Bool.and_eq_true] at h
    have hrest := ih h.2
    simp only [fields, List.splitOnP_cons_eq_if_modifyHead, h.1, if_true] at hrest ⊢
    simpa using hrest

/-- No piece between two separators holds a separator. -/
theorem eq_false_of_mem_splitOnP {separates : Char → Bool} {line piece : List Char}
    (h : piece ∈ line.splitOnP separates) : ∀ c ∈ piece, separates c = false := by
  induction line generalizing piece with
  | nil => simp_all
  | cons c rest ih =>
    rw [List.splitOnP_cons_eq_if_modifyHead] at h
    by_cases hc : separates c = true
    · rw [if_pos hc] at h
      rcases List.mem_cons.1 h with rfl | h
      · simp
      · exact ih h
    · rw [if_neg hc] at h
      cases hpieces : rest.splitOnP separates with
      | nil => simp [hpieces] at h
      | cons first others =>
        rw [hpieces, List.modifyHead_cons] at h
        rcases List.mem_cons.1 h with rfl | h
        · have hfirst := ih (hpieces ▸ List.mem_cons_self)
          simpa [Bool.eq_false_iff.2 hc] using hfirst
        · exact ih (hpieces ▸ List.mem_cons_of_mem _ h)

/-- A field is not empty and holds no white space. -/
theorem mem_fields {line field : List Char} (h : field ∈ fields line) :
    field ≠ [] ∧ ∀ c ∈ field, isWhiteSpace c = false := by
  obtain ⟨hpiece, hne⟩ := List.mem_filter.1 h
  exact ⟨by simpa using hne, eq_false_of_mem_splitOnP hpiece⟩

/-- A line feed ends a line, whatever the text before it. -/
theorem lines_append_lineFeed (text rest : List Char) :
    lines (text ++ '\n' :: rest) =
      (text.splitOn '\n').map dropCarriageReturn ++ lines rest := by
  have hrest := List.splitOn_ne_nil '\n' rest
  have hlast : (rest.splitOn '\n').getLast?.isSome = true := List.getLast?_isSome.2 hrest
  rw [lines, lines, List.splitOn_append_cons_self, List.dropLast_append_of_ne_nil hrest,
    List.getLast?_append, Option.or_of_isSome hlast, List.map_append, List.append_assoc]

/-- Lines that are written one after the other are read one after the other. -/
theorem lines_flatMap (written : List (List Char)) :
    lines (written.flatMap (· ++ ['\n'])) =
      written.flatMap fun line => (line.splitOn '\n').map dropCarriageReturn := by
  induction written with
  | nil => rfl
  | cons line rest ih =>
    rw [List.flatMap_cons, List.append_assoc, List.singleton_append, lines_append_lineFeed, ih,
      List.flatMap_cons]

end Recognizer.Text
