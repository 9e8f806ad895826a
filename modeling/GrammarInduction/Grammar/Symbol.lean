import GrammarInduction.Number.Decimal

/-!
# Symbols and the supply of ids and names

A symbol is a terminal, the literal token, or a non-terminal, a reference to a rule name. Matching
looks at values alone, so a terminal and a non-terminal of one value are the same to it.

A `Supply` hands out symbol ids, rule ids and induced names in ascending order. Induced names are
`$A0`, …, `$Z0`, `$A1`, …, so that the name with number `n` is read back as `n`.
-/

namespace GrammarInduction

/-- An occurrence of a token or of a rule name. -/
structure Symbol where
  value : String
  terminal : Bool
  id : Nat
deriving DecidableEq, Repr

namespace Symbol

/-- Equality as matching sees it. -/
def sameValue (a b : Symbol) : Bool := a.value == b.value

/-- A non-terminal stands between angle brackets. -/
def text (s : Symbol) : String :=
  if s.terminal then s.value else "<" ++ s.value ++ ">"

end Symbol

/-- The induced name with number `n`. -/
def inducedName (n : Nat) : String :=
  String.ofList ('$' :: Char.ofNat ('A'.toNat + n % 26) :: Nat.toDigits 10 (n / 26))

/-- The digits after the letter of an induced name, with an optional plus sign. -/
def roundNumber? : List Char → Option Nat
  | '+' :: cs => Decimal.word? cs
  | cs => Decimal.word? cs

/-- The number of an induced name, none for any other name. -/
def nameNumber? (name : String) : Option Nat :=
  match name.toList with
  | '$' :: letter :: cs =>
    if letter.isUpper then
      (roundNumber? cs).map fun round => round * 26 + (letter.toNat - 'A'.toNat)
    else none
  | _ => none

/-- The next symbol id, rule id and number of an induced name. -/
structure Supply where
  nextSymbol : Nat := 0
  nextRule : Nat := 0
  nextName : Nat := 0
deriving DecidableEq, Repr

namespace Supply

def takeSymbol (s : Supply) : Nat × Supply :=
  (s.nextSymbol, { s with nextSymbol := s.nextSymbol + 1 })

def takeRule (s : Supply) : Nat × Supply :=
  (s.nextRule, { s with nextRule := s.nextRule + 1 })

def takeName (s : Supply) : String × Supply :=
  (inducedName s.nextName, { s with nextName := s.nextName + 1 })

/-- The next `n` induced names, in order. -/
def takeNames : Nat → Supply → List String × Supply
  | 0, s => ([], s)
  | n + 1, s =>
    let (name, s) := s.takeName
    let (names, s) := takeNames n s
    (name :: names, s)

/-- Symbols of the given values and kinds under the next symbol ids, left to right. -/
def issue (s : Supply) (shapes : List (String × Bool)) : List Symbol × Supply :=
  ((shapes.zipIdx s.nextSymbol).map fun ((value, terminal), id) => ⟨value, terminal, id⟩,
    { s with nextSymbol := s.nextSymbol + shapes.length })

/-- Copies of the symbols under the next symbol ids. -/
def relabel (s : Supply) (symbols : List Symbol) : List Symbol × Supply :=
  s.issue (symbols.map fun x => (x.value, x.terminal))

/-- Goes past a symbol id, so that it is not handed out any more. -/
def reserveSymbol (s : Supply) (id : Nat) : Supply :=
  { s with nextSymbol := max s.nextSymbol (id + 1) }

/-- Goes past a rule id. -/
def reserveRule (s : Supply) (id : Nat) : Supply :=
  { s with nextRule := max s.nextRule (id + 1) }

/-- Goes past an induced name; any other name is never handed out. -/
def reserveName (s : Supply) (name : String) : Supply :=
  match nameNumber? name with
  | some n => { s with nextName := max s.nextName (n + 1) }
  | none => s

end Supply

end GrammarInduction
