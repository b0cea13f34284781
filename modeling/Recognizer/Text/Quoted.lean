import Recognizer.Text.DefaultIgnorable
import Recognizer.Text.GraphemeExtend
import Recognizer.Text.Unprintable

/-!
# Quoted text

A character or a text between quotes, as it stands in a report. The quote in use, the backslash and
four controls are escaped by a backslash, and every other character that would not be seen where it
stands is given by its code point. So a report never hides or moves a character.
-/

namespace Recognizer.Text

/-- The code point of `c` in hexadecimal, between braces. -/
def codePoint (c : Char) : List Char :=
  '\\' :: 'u' :: '\x7b' :: Nat.toDigits 16 c.toNat ++ ['\x7d']

/-- Whether `c` would not be seen as a character of its own where it stands. -/
def isHidden (c : Char) : Bool :=
  isCombining c || isUnprintable c || isDefaultIgnorable c

/-- The form of `c` between two quotes. -/
def escapeChar (quote c : Char) : List Char :=
  match c with
  | '\x00' => ['\\', '0']
  | '\t' => ['\\', 't']
  | '\n' => ['\\', 'n']
  | '\r' => ['\\', 'r']
  | '\\' => ['\\', '\\']
  | _ =>
    if c = quote then ['\\', c]
    else if isHidden c then codePoint c
    else [c]

/-- The text between two copies of `quote`. -/
def quoted (quote : Char) (text : List Char) : List Char :=
  quote :: text.flatMap (escapeChar quote) ++ [quote]

/-- A character between single quotes. -/
def quoteChar (c : Char) : String :=
  String.ofList (quoted '\'' [c])

/-- A text between double quotes. -/
def quoteText (text : String) : String :=
  String.ofList (quoted '"' text.toList)

end Recognizer.Text
