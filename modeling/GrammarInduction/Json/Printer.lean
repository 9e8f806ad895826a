import GrammarInduction.Json.Basic

/-!
# Writing JSON

Containers are written over several lines, two spaces deeper on each level; empty ones as a pair of
marks. Strings escape quotes, backslashes and controls, and halves of surrogate pairs; all other
characters stand for themselves.
-/

namespace GrammarInduction.Json

/-- A code point as four hexadecimal digits after a backslash. -/
def numberedCode (code : Nat) : List Char :=
  ['\\', 'u'] ++ (Nat.toDigits 16 code).leftpad 4 '0'

/-- A code point inside a string. -/
def spellCode (code : Nat) : List Char :=
  if code = 0x22 then ['\\', '"']
  else if code = 0x5C then ['\\', '\\']
  else if code = 8 then ['\\', 'b']
  else if code = 9 then ['\\', 't']
  else if code = 10 then ['\\', 'n']
  else if code = 12 then ['\\', 'f']
  else if code = 13 then ['\\', 'r']
  else if code < 0x20 || isHigh code || isLow code then numberedCode code
  else [Char.ofNat code]

/-- A string between quotes. -/
def spellString (codes : List Nat) : List Char :=
  '"' :: codes.flatMap spellCode ++ ['"']

/-- The start of a line on a level. -/
def newline (level : Nat) : List Char := '\n' :: List.replicate (2 * level) ' '

mutual

/-- A value whose first line has been indented to `level` already. -/
def spellValue (level : Nat) : Json → List Char
  | null => ['n', 'u', 'l', 'l']
  | bool true => ['t', 'r', 'u', 'e']
  | bool false => ['f', 'a', 'l', 's', 'e']
  | number literal => literal
  | string codes => spellString codes
  | array [] => ['[', ']']
  | array (v :: vs) =>
    '[' :: newline (level + 1) ++ spellValue (level + 1) v ++ spellItems (level + 1) vs ++
      newline level ++ [']']
  | object [] => ['\x7b', '\x7d']
  | object ((k, v) :: ms) =>
    '\x7b' :: newline (level + 1) ++ spellString k ++ [':', ' '] ++ spellValue (level + 1) v ++
      spellMembers (level + 1) ms ++ newline level ++ ['\x7d']

/-- The items after the first, each after a comma on a line of its own. -/
def spellItems (level : Nat) : List Json → List Char
  | [] => []
  | v :: vs => ',' :: newline level ++ spellValue level v ++ spellItems level vs

/-- The members after the first. -/
def spellMembers (level : Nat) : List (List Nat × Json) → List Char
  | [] => []
  | (k, v) :: ms =>
    ',' :: newline level ++ spellString k ++ [':', ' '] ++ spellValue level v ++
      spellMembers level ms

end

/-- The text of a document. -/
def pretty (v : Json) : String := String.ofList (spellValue 0 v)

end GrammarInduction.Json
