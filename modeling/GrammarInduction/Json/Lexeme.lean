import GrammarInduction.Json.Basic

/-!
# Lexemes of JSON

The marks, words, numbers and strings of a document. White space between them is the space, the tab
and the two line breaks.
-/

namespace GrammarInduction.Json

inductive Lexeme where
  | openArray
  | closeArray
  | openObject
  | closeObject
  | colon
  | comma
  | string (codes : List Nat)
  /-- A value that is one lexeme, other than a string. -/
  | scalar (value : Json)
deriving Repr

/-- The value of a hexadecimal digit. -/
def hexDigit? (c : Char) : Option Nat :=
  if '0' ≤ c ∧ c ≤ '9' then some (c.toNat - '0'.toNat)
  else if 'a' ≤ c ∧ c ≤ 'f' then some (c.toNat - 'a'.toNat + 10)
  else if 'A' ≤ c ∧ c ≤ 'F' then some (c.toNat - 'A'.toNat + 10)
  else none

/-- The number that four hexadecimal digits spell. -/
def hex4? (a b c d : Char) : Option Nat :=
  match hexDigit? a, hexDigit? b, hexDigit? c, hexDigit? d with
  | some a, some b, some c, some d => some (((a * 16 + b) * 16 + c) * 16 + d)
  | _, _, _, _ => none

/-- The code point that a letter after a backslash stands for. -/
def shortEscape? (letter : Char) : Option Nat :=
  if letter = '"' ∨ letter = '\\' ∨ letter = '/' then some letter.toNat
  else if letter = 'b' then some 8
  else if letter = 't' then some 9
  else if letter = 'n' then some 10
  else if letter = 'f' then some 12
  else if letter = 'r' then some 13
  else none

namespace Lexeme

def isSpace (c : Char) : Bool := c == ' ' || c == '\t' || c == '\n' || c == '\r'

/-- The mark that a character is by itself. -/
def ofMark? (c : Char) : Option Lexeme :=
  if c = '[' then some openArray
  else if c = ']' then some closeArray
  else if c = '\x7b' then some openObject
  else if c = '\x7d' then some closeObject
  else if c = ':' then some colon
  else if c = ',' then some comma
  else none

/-- The string before the closing quote, and what follows the quote. Controls and unknown escapes
are refused. -/
def splitString : List Char → Option (List Nat × List Char)
  | [] => none
  | '"' :: rest => some ([], rest)
  | '\\' :: 'u' :: a :: b :: c :: d :: rest =>
    match hex4? a b c d, splitString rest with
    | some code, some (codes, rest) => some (code :: codes, rest)
    | _, _ => none
  | '\\' :: letter :: rest =>
    match shortEscape? letter, splitString rest with
    | some code, some (codes, rest) => some (code :: codes, rest)
    | _, _ => none
  | c :: rest =>
    if c < ' ' then none
    else (splitString rest).map fun (codes, rest) => (c.toNat :: codes, rest)

/-- A non-empty run of digits, and the rest. -/
def splitDigits (cs : List Char) : Option (List Char × List Char) :=
  if cs.takeWhile Char.isDigit = [] then none
  else some (cs.takeWhile Char.isDigit, cs.dropWhile Char.isDigit)

/-- A zero alone or a run of digits that does not begin with one, and the rest. -/
def splitInteger : List Char → Option (List Char × List Char)
  | '0' :: rest => some (['0'], rest)
  | cs => splitDigits cs

/-- A point with digits after it, if there is a point, and the rest. -/
def splitFraction : List Char → Option (List Char × List Char)
  | '.' :: cs => (splitDigits cs).map fun (digits, rest) => ('.' :: digits, rest)
  | cs => some ([], cs)

/-- The sign of an exponent, if there is one, and the rest. -/
def splitSign : List Char → List Char × List Char
  | '+' :: cs => (['+'], cs)
  | '-' :: cs => (['-'], cs)
  | cs => ([], cs)

/-- An exponent, if there is one, and the rest. -/
def splitExponent : List Char → Option (List Char × List Char)
  | [] => some ([], [])
  | c :: cs =>
    if c = 'e' ∨ c = 'E' then
      (splitDigits (splitSign cs).2).map fun (digits, rest) =>
        (c :: (splitSign cs).1 ++ digits, rest)
    else some ([], c :: cs)

/-- The literal of a number without sign, and the rest. -/
def splitUnsigned (cs : List Char) : Option (List Char × List Char) := do
  let (whole, cs) ← splitInteger cs
  let (part, cs) ← splitFraction cs
  let (exponent, cs) ← splitExponent cs
  return (whole ++ part ++ exponent, cs)

/-- The literal of a number, and the rest. -/
def splitNumber : List Char → Option (List Char × List Char)
  | '-' :: cs => (splitUnsigned cs).map fun (literal, rest) => ('-' :: literal, rest)
  | cs => splitUnsigned cs

/-- The lexeme that a text without leading white space begins with, and the rest. -/
def split : List Char → Option (Lexeme × List Char)
  | [] => none
  | '"' :: cs => (splitString cs).map fun (codes, rest) => (string codes, rest)
  | 't' :: 'r' :: 'u' :: 'e' :: rest => some (scalar (.bool true), rest)
  | 'f' :: 'a' :: 'l' :: 's' :: 'e' :: rest => some (scalar (.bool false), rest)
  | 'n' :: 'u' :: 'l' :: 'l' :: rest => some (scalar .null, rest)
  | c :: cs =>
    match ofMark? c with
    | some mark => some (mark, cs)
    | none => (splitNumber (c :: cs)).map fun (literal, rest) => (scalar (.number literal), rest)

/-! ## A lexeme is not empty -/

theorem length_splitString {cs rest : List Char} {codes : List Nat}
    (h : splitString cs = some (codes, rest)) : rest.length < cs.length := by
  fun_induction splitString cs generalizing codes rest with
  | case1 => simp at h
  | case2 => simp at h; simp [h]
  | case3 =>
    rename_i hs _ ih
    have := ih hs
    simp at h; simp [← h.2]; omega
  | case4 => simp at h
  | case5 =>
    rename_i hs _ ih
    have := ih hs
    simp at h; simp [← h.2]; omega
  | case6 => simp at h
  | case7 => simp at h
  | case8 _ _ _ _ _ _ ih =>
    obtain ⟨⟨codes', rest'⟩, h1, h2⟩ := Option.map_eq_some_iff.1 h
    simp at h2; have := ih h1; simp [← h2.2]; omega

theorem length_splitDigits {cs ds rest : List Char} (h : splitDigits cs = some (ds, rest)) :
    rest.length < cs.length := by
  unfold splitDigits at h
  split at h
  · simp at h
  · rename_i hne
    have hlen : (cs.takeWhile Char.isDigit ++ cs.dropWhile Char.isDigit).length = cs.length := by
      rw [List.takeWhile_append_dropWhile]
    have hpos := List.length_pos_iff.2 hne
    simp only [Option.some.injEq, Prod.mk.injEq] at h
    rw [List.length_append, h.2] at hlen
    omega

theorem length_splitInteger {cs ds rest : List Char} (h : splitInteger cs = some (ds, rest)) :
    rest.length < cs.length := by
  unfold splitInteger at h
  split at h
  · simp at h; simp [h]
  · exact length_splitDigits h

theorem length_splitFraction {cs ds rest : List Char} (h : splitFraction cs = some (ds, rest)) :
    rest.length ≤ cs.length := by
  unfold splitFraction at h
  split at h
  · obtain ⟨⟨ds', rest'⟩, h1, h2⟩ := Option.map_eq_some_iff.1 h
    have := length_splitDigits h1
    simp at h2 ⊢; simp [← h2.2]; omega
  · simp at h; simp [h]

theorem length_splitSign (cs : List Char) : (splitSign cs).2.length ≤ cs.length := by
  unfold splitSign
  split <;> simp

theorem length_splitExponent {cs ds rest : List Char} (h : splitExponent cs = some (ds, rest)) :
    rest.length ≤ cs.length := by
  unfold splitExponent at h
  split at h
  · simp at h; simp [h]
  · split at h
    · obtain ⟨⟨ds', rest'⟩, h1, h2⟩ := Option.map_eq_some_iff.1 h
      have hd := length_splitDigits h1
      have hs := Nat.lt_of_lt_of_le hd (length_splitSign _)
      simp at h2 ⊢; simp [← h2.2]; omega
    · simp at h; simp [h]

theorem length_splitUnsigned {cs ds rest : List Char} (h : splitUnsigned cs = some (ds, rest)) :
    rest.length < cs.length := by
  simp only [splitUnsigned, Option.bind_eq_bind, Option.bind_eq_some_iff, Prod.exists] at h
  obtain ⟨_, _, h1, _, _, h2, _, _, h3, h4⟩ := h
  have := length_splitInteger h1
  have := length_splitFraction h2
  have := length_splitExponent h3
  simp at h4
  simp [← h4.2]; omega

theorem length_splitNumber {cs ds rest : List Char} (h : splitNumber cs = some (ds, rest)) :
    rest.length < cs.length := by
  unfold splitNumber at h
  split at h
  · obtain ⟨⟨ds', rest'⟩, h1, h2⟩ := Option.map_eq_some_iff.1 h
    have := length_splitUnsigned h1
    simp at h2 ⊢; simp [← h2.2]; omega
  · exact length_splitUnsigned h

theorem length_split {cs rest : List Char} {l : Lexeme} (h : split cs = some (l, rest)) :
    rest.length < cs.length := by
  unfold split at h
  split at h
  · simp at h
  · obtain ⟨⟨codes, rest'⟩, h1, h2⟩ := Option.map_eq_some_iff.1 h
    have := length_splitString h1
    simp at h2 ⊢; simp [← h2.2]; omega
  · simp at h; simp [h]; omega
  · simp at h; simp [h]; omega
  · simp at h; simp [h]; omega
  · split at h
    · simp at h; simp [h]
    · obtain ⟨⟨ds, rest'⟩, h1, h2⟩ := Option.map_eq_some_iff.1 h
      have := length_splitNumber h1
      simp at h2; simp [← h2.2] at this ⊢; omega

/-- The lexemes of a whole document. -/
def scan (cs : List Char) : Option (List Lexeme) :=
  match cs with
  | [] => some []
  | c :: cs =>
    if isSpace c then scan cs
    else
      match _h : split (c :: cs) with
      | none => none
      | some (l, rest) => (scan rest).map (l :: ·)
termination_by cs.length
decreasing_by
  · simp
  · exact length_split _h

end Lexeme

end GrammarInduction.Json
