/-!
# Ranges of characters

A character class given as a standard gives it: by the list of its ranges of code points, both ends
included.
-/

namespace Recognizer.Text

/-- Whether the code point of `c` lies in one of the ranges. -/
def inRanges (ranges : List (Nat × Nat)) (c : Char) : Bool :=
  ranges.any fun (first, last) => first ≤ c.toNat && c.toNat ≤ last

end Recognizer.Text
