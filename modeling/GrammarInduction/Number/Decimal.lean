/-!
# Decimal numerals

A numeral is a coefficient and a power of ten. `ofChars?` reads digits with an optional point and an
optional exponent; `toChars` writes every place, never an exponent.
-/

namespace GrammarInduction

/-- The number `coefficient * 10 ^ exponent`. -/
structure Decimal where
  coefficient : Nat
  exponent : Int
deriving DecidableEq, Repr

namespace Decimal

/-- A run of digits, none for anything else and for the empty run. -/
def digits? (cs : List Char) : Option Nat :=
  if cs ≠ [] ∧ cs.all Char.isDigit then some (Nat.ofDigitChars 10 cs 0) else none

/-- A run of digits for a number below `2 ^ 64`. -/
def word? (cs : List Char) : Option Nat :=
  (digits? cs).filter (· < Nat.pow 2 64)

/-- An integer: digits after an optional sign. -/
def integer? : List Char → Option Int
  | '-' :: cs => (digits? cs).map fun n => -(n : Int)
  | '+' :: cs => (digits? cs).map fun n => (n : Int)
  | cs => (digits? cs).map fun n => (n : Int)

/-- What may follow the digits of a numeral: nothing, or `e` or `E` and an integer. -/
def exponent? : List Char → Option Int
  | [] => some 0
  | c :: cs => if c = 'e' ∨ c = 'E' then integer? cs else none

/-- The digits after the point, if there is one, and the rest. -/
def fraction : List Char → List Char × List Char
  | '.' :: cs => cs.span Char.isDigit
  | cs => ([], cs)

/-- Digits on at least one side of an optional point, then an optional exponent. -/
def ofChars? (cs : List Char) : Option Decimal :=
  let (whole, rest) := cs.span Char.isDigit
  let (part, rest) := fraction rest
  if whole ++ part = [] then none
  else (exponent? rest).map fun e => ⟨Nat.ofDigitChars 10 (whole ++ part) 0, e - part.length⟩

/-- The digits of `n` with a point before the last `places` of them. -/
def withPoint (n places : Nat) : List Char :=
  let ds := (Nat.toDigits 10 n).leftpad (places + 1) '0'
  ds.take (ds.length - places) ++ '.' :: ds.drop (ds.length - places)

/-- All places of the number: zeros up to the units, or a point before the fraction. -/
def toChars (d : Decimal) : List Char :=
  if 0 ≤ d.exponent then Nat.toDigits 10 (d.coefficient * Nat.pow 10 d.exponent.toNat)
  else withPoint d.coefficient (-d.exponent).toNat

/-- Numerator of the number as a ratio of naturals. -/
def num (d : Decimal) : Nat := d.coefficient * Nat.pow 10 d.exponent.toNat

/-- Denominator of the number as a ratio of naturals, a power of ten. -/
def den (d : Decimal) : Nat := Nat.pow 10 (-d.exponent).toNat

end Decimal

end GrammarInduction
