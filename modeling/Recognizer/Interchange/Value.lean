import Recognizer.Transition

/-!
# Structured values

The values in which automata, label tables and expressions are exchanged with other programs: the
data model of common interchange formats, before any syntax. Sets are lists, and a table is a list
of pairs, so its keys need not be texts.

A reader returns `none` for a value of the wrong form, without saying what is wrong with it.
-/

namespace Recognizer

/-- A structured value. -/
inductive Value where
  | null
  | bool (b : Bool)
  /-- The decimal number `mantissa / 10 ^ places`. -/
  | number (mantissa : Int) (places : Nat)
  | text (s : String)
  | list (items : List Value)
  | record (fields : List (String × Value))
deriving Inhabited

namespace Value

/-- A vertex as a value. -/
def ofVertex (q : Vertex) : Value :=
  number q.toNat 0

/-- A symbol as a value: a text of one character, or null for the silent symbol. -/
def ofSymbol : Symbol → Value
  | none => null
  | some c => text (String.singleton c)

/-- The vertex that a value stands for: an integer in range. -/
def vertex? : Value → Option Vertex
  | number mantissa 0 =>
    if 0 ≤ mantissa ∧ mantissa < UInt32.size then some (UInt32.ofNat mantissa.toNat) else none
  | _ => none

/-- The symbol that a value stands for: null, or a text of exactly one character. -/
def symbol? : Value → Option Symbol
  | null => some none
  | text s =>
    match s.toList with
    | [c] => some (some c)
    | _ => none
  | _ => none

/-- The text that a value stands for. -/
def text? : Value → Option String
  | text s => some s
  | _ => none

/-- The items of a list, each read by `item`. -/
def list? {α : Type} (item : Value → Option α) : Value → Option (List α)
  | list items => items.mapM item
  | _ => none

/-- The two items of a pair, read by `first` and `second`. -/
def pair? {α β : Type} (first : Value → Option α) (second : Value → Option β) :
    Value → Option (α × β)
  | list [a, b] => do return (← first a, ← second b)
  | _ => none

/-- The entries of a table, a list of pairs. -/
def table? {κ μ : Type} (key : Value → Option κ) (entry : Value → Option μ) :
    Value → Option (List (κ × μ)) :=
  list? (pair? key entry)

/-- The field of a record with the given name. -/
def field? (name : String) : Value → Option Value
  | record fields => fields.lookup name
  | _ => none

/-- A list is read back from the values of its items. -/
theorem list?_map {α : Type} {item : Value → Option α} {value : α → Value}
    (hitem : ∀ a, item (value a) = some a) (as : List α) :
    list? item (.list (as.map value)) = some as := by
  rw [list?]
  induction as with
  | nil => rfl
  | cons a rest ih =>
    rw [List.map_cons, List.mapM_cons, hitem, ih]
    rfl

/-- A vertex is read back from its value. -/
theorem vertex?_ofVertex (q : Vertex) : (ofVertex q).vertex? = some q := by
  have hlt : q.toNat < 4294967296 := q.toNat_lt_size
  simp only [ofVertex, vertex?, Int.toNat_natCast, UInt32.ofNat_toNat]
  exact if_pos ⟨by omega, by simp only [UInt32.size]; omega⟩

/-- A symbol is read back from its value. -/
theorem symbol?_ofSymbol (s : Symbol) : (ofSymbol s).symbol? = some s := by
  cases s <;> simp [ofSymbol, symbol?]

end Value

end Recognizer
