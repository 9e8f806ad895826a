import GrammarInduction.Pattern.Basic
import GrammarInduction.Pattern.Lexeme
import GrammarInduction.Text.Quoted

/-!
# Pattern programs

A program is a list of clauses, each ended by a semicolon, which the last may lack. A clause has
three fields with commas between them: the two thresholds and the items. Clauses without lexemes are
skipped but numbered.

The first faulty clause makes the program fail. A clause is judged when the lexeme after its
semicolon has been read, so a character that fits nowhere wins over the clause that ends right
before it.
-/

namespace GrammarInduction

/-- What is wrong in a clause. -/
inductive ClauseFault where
  | fieldCount (found : Nat)
  | invalidThreshold (text : String)
  | emptyPattern
  | invalidItem (text : String)
  | unexpectedChar (c : Char)
deriving DecidableEq, Repr

def ClauseFault.message : ClauseFault → String
  | fieldCount found => "expected 3 comma-separated fields, found " ++ toString found
  | invalidThreshold text => "invalid threshold " ++ Text.quoted text
  | emptyPattern => "empty token pattern"
  | invalidItem text => "invalid pattern token " ++ Text.quoted text
  | unexpectedChar c => "unexpected character " ++ Text.quotedChar c

/-- The first fault of a program and the number of its clause, counted from 1. -/
structure ProgramError where
  clause : Nat
  fault : ClauseFault
deriving DecidableEq, Repr

def ProgramError.message (e : ProgramError) : String :=
  "clause " ++ toString e.clause ++ ": " ++ e.fault.message

/-- A letter or an underscore, then letters, numbers and underscores. -/
def isVariableName (name : String) : Bool :=
  match name.toList with
  | [] => false
  | c :: cs =>
    (Text.isAlphabetic c || c == '_') && cs.all fun c => Text.isAlphanumeric c || c == '_'

namespace Clause

/-- One word that is a finite number not below zero. -/
def threshold (field : List Lexeme) : Except ClauseFault Binary64 :=
  let fault := ClauseFault.invalidThreshold (" ".intercalate (field.map Lexeme.text))
  match field with
  | [.word w] =>
    match Binary64.ofText? w with
    | some x => if x.isFinite && x.isNonnegative then .ok x else .error fault
    | none => .error fault
  | _ => .error fault

/-- A star or a word that is a variable name. -/
def item : Lexeme → Except ClauseFault PatternItem
  | .star => .ok .wildcard
  | .word w => if isVariableName w then .ok (.var w) else .error (.invalidItem w)
  | mark => .error (.invalidItem mark.text)

/-- The items of a pattern, at least one. -/
def items (field : List Lexeme) : Except ClauseFault (List PatternItem) :=
  if field = [] then .error .emptyPattern else field.mapM item

/-- The pattern of the fields of one clause; none for a clause without lexemes. -/
def ofFields : List (List Lexeme) → Except ClauseFault (Option Pattern)
  | [[]] => .ok none
  | [fire, wild, body] => do
    let fire ← threshold fire
    let wild ← threshold wild
    let items ← items body
    return some ⟨items, fire, wild⟩
  | fields => .error (.fieldCount fields.length)

end Clause

/-- A parser between two lexemes: the text that has not been read, the lexeme before it, none at the
end of the text, and the number of the clause that is parsed. -/
structure Parser where
  rest : List Char
  current : Option Lexeme
  clause : Nat

namespace Parser

def start (text : List Char) : Except ProgramError Parser :=
  match Lexeme.next text with
  | .ok (current, rest) => .ok ⟨rest, current, 1⟩
  | .error c => .error ⟨1, .unexpectedChar c⟩

/-- The number of the clause that the lexeme after the current one is in. -/
def nextClause (p : Parser) : Nat :=
  if p.current = some .semicolon then p.clause + 1 else p.clause

/-- Takes the current lexeme and reads the next. -/
def advance (p : Parser) : Except ProgramError (Option Lexeme × Parser) :=
  match Lexeme.next p.rest with
  | .ok (next, rest) => .ok (p.current, { p with rest := rest, current := next })
  | .error c => .error ⟨p.nextClause, .unexpectedChar c⟩

/-- What is ahead: the text and the current lexeme. -/
def size (p : Parser) : Nat := p.rest.length + if p.current.isSome then 1 else 0

theorem taken_of_advance {p q : Parser} {taken : Option Lexeme}
    (h : p.advance = .ok (taken, q)) : taken = p.current := by
  unfold advance at h
  split at h
  · cases h
    rfl
  · cases h

/-- Whatever is taken is no longer ahead. -/
theorem size_of_advance {p q : Parser} {taken : Option Lexeme}
    (h : p.advance = .ok (taken, q)) : q.size + (if taken.isSome then 1 else 0) ≤ p.size := by
  unfold advance at h
  split at h
  · rename_i next rest hnext
    cases h
    have hlen : rest.length + (if next.isSome then 1 else 0) ≤ p.rest.length := by
      cases next with
      | none => simp [Lexeme.rest_of_next_none hnext]
      | some l => exact Lexeme.length_lt_of_next hnext
    exact Nat.add_le_add_right hlen _
  · cases h

/-- The fields of the clause that is parsed, with the lexemes up to its end taken. `fields` are
there already, and `field` is the beginning of the next. -/
def readFields (p : Parser) (fields : List (List Lexeme)) (field : List Lexeme) :
    Except ProgramError (List (List Lexeme) × Parser) :=
  match _h : p.advance with
  | .error e => .error e
  | .ok (none, q) => .ok (fields ++ [field], q)
  | .ok (some .semicolon, q) => .ok (fields ++ [field], q)
  | .ok (some .comma, q) => q.readFields (fields ++ [field]) []
  | .ok (some l, q) => q.readFields fields (field ++ [l])
termination_by p.size
decreasing_by all_goals exact size_of_advance _h

theorem size_of_readFields {p q : Parser} {before fields : List (List Lexeme)}
    {field : List Lexeme} (h : p.readFields before field = .ok (fields, q)) :
    q.size + (if p.current.isSome then 1 else 0) ≤ p.size := by
  fun_induction readFields p before field with
  | case1 => cases h
  | case2 p _ _ q' hq =>
    cases h
    rw [← taken_of_advance hq]
    exact size_of_advance hq
  | case3 p _ _ q' hq =>
    cases h
    rw [← taken_of_advance hq]
    exact size_of_advance hq
  | case4 p _ _ q' hq ih =>
    rw [← taken_of_advance hq]
    exact Nat.le_trans (Nat.succ_le_succ (Nat.le_of_add_right_le (ih h))) (size_of_advance hq)
  | case5 p _ _ l q' _ _ hq ih =>
    rw [← taken_of_advance hq]
    exact Nat.le_trans (Nat.succ_le_succ (Nat.le_of_add_right_le (ih h))) (size_of_advance hq)

/-- The pattern of the clause that is parsed; none for a clause without lexemes. -/
def parseClause (p : Parser) : Except ProgramError (Option Pattern × Parser) :=
  match p.readFields [] [] with
  | .error e => .error e
  | .ok (fields, q) =>
    match Clause.ofFields fields with
    | .error fault => .error ⟨q.clause, fault⟩
    | .ok found => .ok (found, q)

theorem size_of_parseClause {p q : Parser} {found : Option Pattern}
    (h : p.parseClause = .ok (found, q)) :
    q.size + (if p.current.isSome then 1 else 0) ≤ p.size := by
  unfold parseClause at h
  split at h
  · cases h
  · rename_i hfields
    split at h
    · cases h
    · cases h
      exact size_of_readFields hfields

/-- The patterns of the clauses that are ahead, after the patterns that are there already. -/
def parseClauses (p : Parser) (patterns : List Pattern) : Except ProgramError (List Pattern) :=
  if p.current.isSome then
    match _h : p.parseClause with
    | .error e => .error e
    | .ok (found, q) =>
      { q with clause := q.clause + 1 }.parseClauses (patterns ++ found.toList)
  else .ok patterns
termination_by p.size
decreasing_by
  have hsize := size_of_parseClause _h
  rw [if_pos ‹_›] at hsize
  exact hsize

end Parser

/-- Reads a pattern program: one pattern for each clause that is not empty, in order. -/
def parseProgram (program : String) : Except ProgramError (List Pattern) := do
  (← Parser.start program.toList).parseClauses []

end GrammarInduction
