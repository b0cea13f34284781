import Mathlib.Data.List.Basic
import Recognizer.Drawing

/-!
# Reading drawings

A reader of drawings that knows the layout and nothing of automata. It takes texts from the front:
fixed pieces, numbers up to a character that ends them, quoted strings up to the closing quote, and
lines for as long as there is one of the kind. Lines are not cut out first, as a name may hold line
breaks.

A reader reads a text as a value if it takes just this text, whatever follows (`Reads`). Readers
that are run one after the other read texts that are put one after the other (`Reads.bind`).
-/

namespace Recognizer.Drawing

open Text

/-- Takes something from the front of a text, or fails. -/
abbrev Reader (α : Type) := StateT (List Char) Option α

namespace Reader

variable {α β : Type} {reader : Reader α} {next : α → Reader β} {text more rest : List Char}
variable {a : α} {b : β} {stop : Char} {q : Vertex}

/-- The reader takes just this text and makes the value of it, whatever follows. -/
def Reads (reader : Reader α) (text : List Char) (a : α) : Prop :=
  ∀ rest, reader.run (text ++ rest) = some (a, rest)

/-- A result that is at hand takes no text. -/
theorem Reads.pure : Reads (Pure.pure a) [] a := fun _ => rfl

/-- After a reader has taken its text, the next one goes on with what follows. -/
theorem Reads.run_bind (h : reader.Reads text a) :
    (reader >>= next).run (text ++ rest) = (next a).run rest := by
  rw [StateT.run_bind, h]
  rfl

/-- Readers one after the other read texts one after the other. -/
theorem Reads.bind (h : reader.Reads text a) (hnext : (next a).Reads more b) :
    (reader >>= next).Reads (text ++ more) b := by
  intro rest
  rw [List.append_assoc, h.run_bind]
  exact hnext rest

/-! ### Fixed pieces -/

/-- Takes the given text. -/
def expect (text : List Char) : Reader Unit := fun input =>
  (input.dropPrefix? text).map fun rest => ((), rest)

/-- An expected text is taken. -/
theorem reads_expect : (expect text).Reads text () := by
  intro rest
  have hbegins : (text ++ rest).dropPrefix? text = some rest :=
    List.dropPrefix?_eq_some_iff.2 ⟨text, rfl, beq_self_eq_true text⟩
  exact congrArg (Option.map _) hbegins

/-- What is to begin with a text takes nothing that begins otherwise. -/
theorem run_expect_bind_eq_none {next : Unit → Reader β} (h : ¬ text <+: rest) :
    (expect text >>= next).run rest = none := by
  have hbegins : rest.dropPrefix? text = none := by
    rw [Option.eq_none_iff_forall_ne_some]
    intro remainder hdrop
    obtain ⟨found, rfl, hfound⟩ := List.dropPrefix?_eq_some_iff.1 hdrop
    exact h ⟨remainder, by rw [eq_of_beq hfound]⟩
  have hexpect : (expect text).run rest = none := congrArg (Option.map _) hbegins
  rw [StateT.run_bind, hexpect]
  rfl

/-! ### Words and numbers -/

/-- Takes everything up to the first `stop`, and this, too. -/
def upTo (stop : Char) : Reader (List Char) := fun input =>
  match input.dropWhile (· != stop) with
  | [] => none
  | _ :: rest => some (input.takeWhile (· != stop), rest)

/-- What stands before a stop is read up to it. -/
theorem reads_upTo (h : stop ∉ text) : (upTo stop).Reads (text ++ [stop]) text := by
  intro rest
  have hall : ∀ c ∈ text, (c != stop) = true := fun c hc => bne_iff_ne.2 fun heq => h (heq ▸ hc)
  have hdrop : (text ++ [stop] ++ rest).dropWhile (· != stop) = stop :: rest := by
    rw [List.append_assoc, List.dropWhile_append_of_pos hall]
    simp
  have htake : (text ++ [stop] ++ rest).takeWhile (· != stop) = text := by
    rw [List.append_assoc, List.takeWhile_append_of_pos hall]
    simp
  change (match (text ++ [stop] ++ rest).dropWhile (· != stop) with
    | [] => none
    | _ :: rest' => some ((text ++ [stop] ++ rest).takeWhile (· != stop), rest')) = _
  rw [hdrop, htake]

/-- Takes the number of a vertex, up to `stop`. -/
def numeral (stop : Char) : Reader Vertex := do
  let digits ← upTo stop
  StateT.lift (Numeral.read digits)

/-- A numeral that ends at something other than a digit is read. -/
theorem reads_numeral (h : stop.isDigit = false) :
    (numeral stop).Reads (Numeral.write q ++ [stop]) q := by
  have hstop : stop ∉ Numeral.write q := by
    intro hmem
    rw [(Numeral.isDecimal_write q).isDigit stop hmem] at h
    cases h
  have hread : Reads (StateT.lift (Numeral.read (Numeral.write q))) [] q := by
    intro rest
    rw [Numeral.read_write]
    rfl
  rw [numeral, ← List.append_nil (Numeral.write q ++ [stop])]
  exact (reads_upTo hstop).bind hread

/-! ### Quoted strings -/

/-- The text before the closing quote without its escapes, and what follows the quote. -/
def unescape : List Char → Option (List Char × List Char)
  | [] => none
  | '"' :: rest => some ([], rest)
  | '\\' :: c :: rest => (unescape rest).map fun (text, rest) => (c :: text, rest)
  | c :: rest => (unescape rest).map fun (text, rest) => (c :: text, rest)

/-- Takes a quoted string after its opening quote. -/
def quoted : Reader (List Char) :=
  unescape

/-- A text is what its escaped form between quotes says. -/
theorem reads_quoted : quoted.Reads (text.flatMap escapeQuoted ++ ['"']) text := by
  intro rest
  induction text with
  | nil => rfl
  | cons c text ih =>
    have ih : unescape (text.flatMap escapeQuoted ++ ['"'] ++ rest) = some (text, rest) := ih
    change unescape ((c :: text).flatMap escapeQuoted ++ ['"'] ++ rest) = some (c :: text, rest)
    rw [List.flatMap_cons, escapeQuoted]
    by_cases hc : c = '"' || c = '\\'
    · rw [if_pos hc]
      change (unescape (text.flatMap escapeQuoted ++ ['"'] ++ rest)).map _ = _
      rw [ih]
      rfl
    · rw [if_neg hc]
      simp only [Bool.or_eq_true, decide_eq_true_eq, not_or] at hc
      change unescape (c :: (text.flatMap escapeQuoted ++ ['"'] ++ rest)) = _
      rw [unescape.eq_4, ih]
      · rfl
      · exact hc.1
      · exact fun _ _ h _ => hc.2 h

/-! ### Lines of one kind -/

/-- Takes items for as long as there is one. -/
def gather (item : Reader α) (input : List Char) : List α × List Char :=
  match item.run input with
  | none => ([], input)
  | some (a, rest) =>
    -- An item that takes nothing could be taken forever.
    if rest.length < input.length then
      let (as, rest) := gather item rest
      (a :: as, rest)
    else ([], input)
termination_by input.length

/-- Takes items for as long as there is one. -/
def many (item : Reader α) : Reader (List α) := fun input =>
  some (gather item input)

/-- The texts of items are taken before a text that is none. -/
theorem gather_flatMap {item : Reader α} {items : List β} {write : β → List Char} {value : β → α}
    (hitem : ∀ b, item.Reads (write b) (value b)) (hwrite : ∀ b, write b ≠ [])
    (hstop : item.run rest = none) :
    gather item (items.flatMap write ++ rest) = (items.map value, rest) := by
  induction items with
  | nil =>
    rw [List.flatMap_nil, List.nil_append, gather, hstop]
    rfl
  | cons b items ih =>
    have hpos := List.length_pos_iff.2 (hwrite b)
    rw [List.flatMap_cons, List.append_assoc, gather, hitem b]
    simp only
    rw [if_pos (by simp only [List.length_append]; omega), ih, List.map_cons]

/-- After the texts of items, the next reader goes on with the text that is none. -/
theorem run_many_bind {item : Reader α} {items : List β} {write : β → List Char} {value : β → α}
    {γ : Type} {next : List α → Reader γ} (hitem : ∀ b, item.Reads (write b) (value b))
    (hwrite : ∀ b, write b ≠ []) (hstop : item.run rest = none) :
    (many item >>= next).run (items.flatMap write ++ rest) = (next (items.map value)).run rest := by
  have hmany : (many item).run (items.flatMap write ++ rest) = some (items.map value, rest) :=
    congrArg some (gather_flatMap hitem hwrite hstop)
  rw [StateT.run_bind, hmany]
  rfl

end Reader

/-! ### Drawings -/

/-- A node of a drawing. -/
structure Node where
  vertex : Vertex
  label : List Char
  shape : List Char

/-- An edge of a drawing. -/
structure Edge where
  source : Vertex
  target : Vertex
  label : List Char

/-- What can be seen in a drawing. -/
structure Picture where
  nodes : List Node
  start : Vertex
  edges : List Edge

namespace Reader

/-- Takes the line of a node. -/
def readNode : Reader Node := do
  expect "\tq".toList
  let vertex ← numeral ' '
  expect "[label = \"".toList
  let label ← quoted
  expect ", shape = ".toList
  let shape ← upTo ']'
  expect ['\n']
  return { vertex, label, shape }

/-- Takes the line of an edge. -/
def readEdge : Reader Edge := do
  expect "\tq".toList
  let source ← numeral ' '
  expect "-> q".toList
  let target ← numeral ' '
  expect "[label = \"".toList
  let label ← quoted
  expect "]\n".toList
  return { source, target, label }

/-- Takes a drawing. -/
def readPicture : Reader Picture := do
  expect "digraph \x7b\n\tstart [shape = point]\n".toList
  let nodes ← many readNode
  expect "\tstart -> q".toList
  let start ← numeral '\n'
  let edges ← many readEdge
  expect ['\x7d']
  return { nodes, start, edges }

end Reader

/-- What can be seen in a text, if it is a drawing. -/
def read (text : String) : Option Picture :=
  match Reader.readPicture.run text.toList with
  | some (picture, []) => some picture
  | _ => none

end Recognizer.Drawing
