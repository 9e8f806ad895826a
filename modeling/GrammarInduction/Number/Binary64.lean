import GrammarInduction.Number.Decimal

/-!
# Binary64 numbers

Double-precision numbers by exact arithmetic. A magnitude is the code that its exponent and
significand fields spell, so codes are ordered as the values they stand for and the code after the
greatest finite one is infinity. A value is a significand below `2 ^ 53` times `2 ^ (shift - 1074)`,
where `2 ^ -1074` is the least magnitude.
-/

namespace GrammarInduction

namespace Binary64

/-- The code of infinity. -/
def infinityCode : Nat := 2047 * Nat.pow 2 52

/-- The exponent and significand fields of a number that is not a NaN. -/
abbrev Magnitude := Fin (infinityCode + 1)

namespace Magnitude

def infinity : Magnitude := Fin.last infinityCode

/-- The power of two in units of `2 ^ -1074`; it is one below `2 ^ 53`. -/
def shift (m : Magnitude) : Nat := m.val / Nat.pow 2 52 - 1

/-- The factor before the power of two; codes below `2 ^ 53` are their own significand. -/
def significand (m : Magnitude) : Nat := m.val - m.shift * Nat.pow 2 52

/-- The value in units of `2 ^ -1074`. -/
def units (m : Magnitude) : Nat := m.significand * Nat.pow 2 m.shift

end Magnitude

/-- The quotient rounded to the nearest integer, a half to the even neighbour. -/
def halfEven (a b : Nat) : Nat :=
  let q := a / b
  let r := a % b
  if 2 * r < b ∨ (2 * r = b ∧ q % 2 = 0) then q else q + 1

/-- The least shift that leaves a significand below `2 ^ 53` for the positive number `num / den`. -/
def shiftOf (num den : Nat) : Nat :=
  let carry := if num * Nat.pow 2 den.log2 < den * Nat.pow 2 num.log2 then 1 else 0
  num.log2 + 1022 - den.log2 - carry

/-- The magnitude nearest to the positive number `num / den`, a half to the even code and too large
ones to infinity. -/
def nearest (num den : Nat) : Magnitude :=
  let k := shiftOf num den
  let code := k * Nat.pow 2 52 + halfEven (num * Nat.pow 2 (1074 - k)) (den * Nat.pow 2 (k - 1074))
  ⟨min code infinityCode, by omega⟩

end Binary64

/-- A binary64 number; all NaNs are one. -/
inductive Binary64 where
  | nan
  | signed (negative : Bool) (magnitude : Binary64.Magnitude)
deriving DecidableEq, Repr

/-- The magnitude nearest to a decimal numeral. Far out the exponent decides alone. -/
def Decimal.nearest (d : Decimal) : Binary64.Magnitude :=
  if d.coefficient = 0 then 0
  else if 400 ≤ d.exponent then .infinity
  else if (d.coefficient.log2 + 1076 : Int) ≤ 3 * -d.exponent then 0
  else Binary64.nearest d.num d.den

namespace Binary64

def zero : Binary64 := .signed false 0

/-- Neither a NaN nor an infinity. -/
def isFinite : Binary64 → Bool
  | nan => false
  | signed _ m => m < .infinity

/-- At least zero; both zeros count. -/
def isNonnegative : Binary64 → Bool
  | nan => false
  | signed negative m => !negative || m == 0

/-- The code with the sign of the number; both zeros have 0. -/
def signedCode (negative : Bool) (m : Magnitude) : Int := if negative then -m.val else m.val

/-- The order of numbers. Both zeros are equal, and a NaN comes after everything else. -/
def le : Binary64 → Binary64 → Bool
  | _, nan => true
  | nan, signed _ _ => false
  | signed s m, signed t n => signedCode s m ≤ signedCode t n

/-- The number nearest to a natural number. -/
def ofNat (n : Nat) : Binary64 := signed false (if n = 0 then 0 else nearest n 1)

/-- Whether the number is at most the count `n`, once that is rounded. No count reaches a NaN. -/
def atMost (n : Nat) (x : Binary64) : Bool := x.le (ofNat n)

/-- The interchange format: sign, exponent and significand fields as one number of 64 bits. -/
def bits : Binary64 → Nat
  | nan => 0x7FF8000000000000
  | signed negative m => (if negative then Nat.pow 2 63 else 0) + m.val

/-! ## Reading -/

/-- A magnitude in words or as a decimal numeral; `none` inside stands for a NaN. -/
def magnitude? (cs : List Char) : Option (Option Magnitude) :=
  match Decimal.ofChars? cs with
  | some d => some (some d.nearest)
  | none =>
    let word := String.ofList (cs.map Char.toLower)
    if word = "inf" ∨ word = "infinity" then some (some .infinity)
    else if word = "nan" then some none
    else none

/-- Whether a numeral has a minus sign, and what follows its sign. -/
def splitSign : List Char → Bool × List Char
  | '-' :: cs => (true, cs)
  | '+' :: cs => (false, cs)
  | cs => (false, cs)

/-- Reads an optional sign and then a decimal numeral, `inf`, `infinity` or `nan` in any case. -/
def ofText? (text : String) : Option Binary64 :=
  let (negative, cs) := splitSign text.toList
  (magnitude? cs).map fun
    | some m => signed negative m
    | none => nan

/-! ## Writing -/

/-- The multiple of `10 ^ exponent` next to `m` that reads back as `m`: of two the nearer one, and
the greater one of two at the same distance. -/
def onGrid (m : Magnitude) (exponent : Int) : Option Decimal :=
  let unit : Decimal := ⟨1, exponent⟩
  let a := m.units * unit.den
  let b := Nat.pow 2 1074 * unit.num
  let below : Decimal := ⟨a / b, exponent⟩
  let above : Decimal := ⟨a / b + 1, exponent⟩
  if above.nearest = m ∧ (below.nearest ≠ m ∨ b ≤ 2 * (a % b)) then some above
  else if below.nearest = m then some below
  else none

/-- The first hit on the grids `10 ^ (n - 1074)`, …, `10 ^ -1074`, from coarse to fine. The last
grid holds every magnitude itself. -/
def firstOnGrid (m : Magnitude) : Nat → Decimal
  | 0 => ⟨m.units * Nat.pow 5 1074, -1074⟩
  | n + 1 => (onGrid m ((n + 1 : Int) - 1074)).getD (firstOnGrid m n)

/-- The numeral with the fewest digits that reads back as the finite magnitude `m`. -/
def shortest (m : Magnitude) : Decimal :=
  if m = 0 then ⟨0, 0⟩
  else firstOnGrid m ((Nat.toDigits 10 (m.units / Nat.pow 2 1074)).length + 1074)

/-- The fewest digits that read back, all places written out. -/
def text : Binary64 → String
  | nan => "NaN"
  | signed negative m =>
    let body := if m = .infinity then "inf".toList else (shortest m).toChars
    String.ofList (if negative then '-' :: body else body)

end Binary64

end GrammarInduction
