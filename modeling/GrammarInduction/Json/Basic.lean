/-!
# JSON values

A value keeps its numbers as literals and its strings as lists of code points, so a document can be
read before it is known which numbers and strings are wanted. An escape may name half of a surrogate
pair; `text?` joins the halves and refuses a half that stands alone.
-/

namespace GrammarInduction

inductive Json where
  | null
  | bool (b : Bool)
  | number (literal : List Char)
  | string (codes : List Nat)
  | array (items : List Json)
  | object (members : List (List Nat × Json))
deriving Repr

namespace Json

/-! ## Code points and texts -/

/-- The first half of a surrogate pair. -/
def isHigh (code : Nat) : Bool := 0xD800 ≤ code && code < 0xDC00

/-- The second half of a surrogate pair. -/
def isLow (code : Nat) : Bool := 0xDC00 ≤ code && code < 0xE000

/-- The character that a surrogate pair stands for. -/
def ofPair (high low : Nat) : Char :=
  Char.ofNat (0x10000 + (high - 0xD800) * 0x400 + (low - 0xDC00))

/-- The characters of a list of code points; none if half of a surrogate pair stands alone. -/
def chars? : List Nat → Option (List Char)
  | [] => some []
  | code :: rest =>
    if isHigh code then
      match rest with
      | [] => none
      | low :: rest => if isLow low then (chars? rest).map (ofPair code low :: ·) else none
    else if isLow code then none
    else (chars? rest).map (Char.ofNat code :: ·)

/-- The text of a list of code points. -/
def text? (codes : List Nat) : Option String := (chars? codes).map String.ofList

/-- The code points of a text. -/
def codesOf (s : String) : List Nat := s.toList.map Char.toNat

/-! ## Values from data -/

def ofString (s : String) : Json := .string (codesOf s)

def ofNat (n : Nat) : Json := .number (Nat.toDigits 10 n)

/-- An object of named members. -/
def ofFields (fields : List (String × Json)) : Json :=
  .object (fields.map fun (name, value) => (codesOf name, value))

end Json

end GrammarInduction
