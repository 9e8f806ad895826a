import GrammarInduction.Grammar.Symbol

/-!
# Rules and spans

A rule lets the name on its left-hand side stand for the symbols on its right-hand side. A span is a
stretch of one rule's right-hand side, given by its first and its last position.
-/

namespace GrammarInduction

/-- Several values as one text, joined by the unit separator U+001F. -/
def joinedKey (values : List String) : String := "\x1f".intercalate values

/-- One alternative for the name `lhs`. -/
structure Rule where
  lhs : String
  rhs : List Symbol
  id : Nat
deriving DecidableEq, Repr

namespace Rule

def values (r : Rule) : List String := r.rhs.map Symbol.value

/-- The right-hand side as one text. -/
def key (r : Rule) : String := joinedKey r.values

/-- Name and values, without ids and kinds of symbols. -/
def shape (r : Rule) : String × List String := (r.lhs, r.values)

/-- The order of shapes: by name, then by the values from left to right. -/
def shapeLe (a b : String × List String) : Bool :=
  a.1 < b.1 || (a.1 == b.1 && !decide (b.2 < a.2))

/-- Equality up to ids and kinds of symbols. -/
def same (r q : Rule) : Bool := r.shape == q.shape

/-- The id as it is shown, `r0`. -/
def idText (id : Nat) : String := "r" ++ toString id

/-- The name, an arrow and the symbols, `X -> a <B>`. -/
def text (r : Rule) : String :=
  r.lhs ++ " ->" ++ String.join (r.rhs.map fun s => " " ++ s.text)

/-- A copy under fresh ids; its symbols take theirs first. -/
def fresh (r : Rule) (s : Supply) : Rule × Supply :=
  let (rhs, s) := s.relabel r.rhs
  let (id, s) := s.takeRule
  (⟨r.lhs, rhs, id⟩, s)

/-- Writes `new` wherever the value `old` stands on the right-hand side. -/
def rename (old new : String) (r : Rule) : Rule :=
  { r with rhs := r.rhs.map fun s => if s.value = old then { s with value := new } else s }

end Rule

/-- The positions `first` to `last` of the rule with id `rule`, both ends included. -/
structure Span where
  rule : Nat
  first : Nat
  last : Nat
deriving DecidableEq, Repr

namespace Span

def length (s : Span) : Nat := s.last + 1 - s.first

/-- Whether two spans of one rule share a position. -/
def overlaps (s t : Span) : Bool :=
  s.rule == t.rule && s.first ≤ t.last && t.first ≤ s.last

/-- The rule and both ends, `r1[0..=2]`. -/
def text (s : Span) : String :=
  Rule.idText s.rule ++ "[" ++ toString s.first ++ "..=" ++ toString s.last ++ "]"

end Span

end GrammarInduction
