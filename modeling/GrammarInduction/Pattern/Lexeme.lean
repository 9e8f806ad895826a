import GrammarInduction.Text.Class

/-!
# Lexemes of pattern programs

A program is read as words, stars, commas and semicolons. White space and comments, which run from
`%` to the end of the line, only separate. They are read one at a time.
-/

namespace GrammarInduction

inductive Lexeme where
  | word (text : String)
  | star
  | comma
  | semicolon
deriving DecidableEq, Repr

namespace Lexeme

/-- A character of a word: a letter or number of any script, an underscore or a point. -/
def isWordChar (c : Char) : Bool := Text.isAlphanumeric c || c == '_' || c == '.'

def text : Lexeme → String
  | word w => w
  | star => "*"
  | comma => ","
  | semicolon => ";"

/-- The mark that a character is by itself. -/
def ofMark? (c : Char) : Option Lexeme :=
  if c = ',' then some comma
  else if c = ';' then some semicolon
  else if c = '*' then some star
  else none

/-- The first lexeme of a text, none if there is no more, and the text after it; or the first
character that fits nowhere. -/
def next : List Char → Except Char (Option Lexeme × List Char)
  | [] => .ok (none, [])
  | c :: cs =>
    if Text.isBlank c then next cs
    else if c = '%' then next (cs.dropWhile (· ≠ '\n'))
    else
      match ofMark? c with
      | some mark => .ok (some mark, cs)
      | none =>
        if isWordChar c then
          .ok (some (word (String.ofList (c :: cs.takeWhile isWordChar))), cs.dropWhile isWordChar)
        else .error c
termination_by cs => cs.length
decreasing_by
  · simp
  · exact Nat.lt_succ_of_le (List.dropWhile_sublist _).length_le

/-- A lexeme takes up some of the text. -/
theorem length_lt_of_next {cs rest : List Char} {l : Lexeme}
    (h : next cs = .ok (some l, rest)) : rest.length < cs.length := by
  fun_induction next cs with
  | case1 => cases h
  | case2 c cs _ ih => exact Nat.lt_succ_of_lt (ih h)
  | case3 cs _ ih =>
    exact Nat.lt_succ_of_lt (Nat.lt_of_lt_of_le (ih h) (List.dropWhile_sublist _).length_le)
  | case4 =>
    cases h
    exact Nat.lt_succ_self _
  | case5 =>
    cases h
    exact Nat.lt_succ_of_le (List.dropWhile_sublist _).length_le
  | case6 => cases h

/-- After the last lexeme no text is left. -/
theorem rest_of_next_none {cs rest : List Char} (h : next cs = .ok (none, rest)) : rest = [] := by
  fun_induction next cs with
  | case1 =>
    cases h
    rfl
  | case2 c cs _ ih => exact ih h
  | case3 cs _ ih => exact ih h
  | case4 => cases h
  | case5 => cases h
  | case6 => cases h

end Lexeme

end GrammarInduction
