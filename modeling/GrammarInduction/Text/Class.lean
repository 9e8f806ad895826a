import GrammarInduction.Text.Alphabetic
import GrammarInduction.Text.Numeric

/-!
# Character classes

The classes that tokens, variable names and pattern words are made of. `isBlank` is the property
`White_Space`; `isAlphanumeric` joins the alphabetic and the numeric characters of every script.
-/

namespace GrammarInduction.Text

/-- Membership in ascending, disjoint ranges; the scan stops at the first range above `code`. -/
def inRanges : List (Nat × Nat) → Nat → Bool
  | [], _ => false
  | (first, last) :: rest, code =>
    if code < first then false else if code ≤ last then true else inRanges rest code

/-- First and last code point of each run of white space, ascending. -/
def blankRanges : List (Nat × Nat) :=
  [(0x9, 0xD), (0x20, 0x20), (0x85, 0x85), (0xA0, 0xA0), (0x1680, 0x1680), (0x2000, 0x200A),
   (0x2028, 0x2029), (0x202F, 0x202F), (0x205F, 0x205F), (0x3000, 0x3000)]

/-- White space. -/
def isBlank (c : Char) : Bool := inRanges blankRanges c.toNat

/-- A letter, or a sign that counts as one. -/
def isAlphabetic (c : Char) : Bool := inRanges alphabeticRanges c.toNat

/-- A decimal digit of any script, a letter number or another number. -/
def isNumeric (c : Char) : Bool := inRanges numericRanges c.toNat

/-- A letter or a number. -/
def isAlphanumeric (c : Char) : Bool := isAlphabetic c || isNumeric c

end GrammarInduction.Text
