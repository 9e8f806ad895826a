import GrammarInduction.Text.Class
import GrammarInduction.Text.Unprintable

/-!
# Quoted characters and texts

Error messages show a character between single quotes and a text between double quotes. The quote
mark in use and the backslash take a backslash; what has no glyph of its own is written by number.
-/

namespace GrammarInduction.Text

/-- The code point in lower-case hexadecimal without leading zeros, as `\u{301}`. -/
def numbered (c : Char) : List Char :=
  ['\\', 'u', '\x7b'] ++ Nat.toDigits 16 c.toNat ++ ['\x7d']

/-- One character inside quotation marks of the kind `mark`. -/
def escape (mark c : Char) : List Char :=
  if c = '\x00' then ['\\', '0']
  else if c = '\t' then ['\\', 't']
  else if c = '\n' then ['\\', 'n']
  else if c = '\r' then ['\\', 'r']
  else if c = '\\' || c = mark then ['\\', c]
  else if inRanges unprintableRanges c.toNat then numbered c
  else [c]

/-- A character between single quotes. -/
def quotedChar (c : Char) : String :=
  String.ofList ('\'' :: escape '\'' c ++ ['\''])

/-- A text between double quotes. -/
def quoted (s : String) : String :=
  String.ofList ('"' :: s.toList.flatMap (escape '"') ++ ['"'])

end GrammarInduction.Text
