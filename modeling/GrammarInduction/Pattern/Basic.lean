import GrammarInduction.Number.Binary64
import GrammarInduction.Pattern.Bindings

/-!
# Sequence patterns

A pattern is a list of items, each a variable or the wildcard, and the two thresholds that decide
what becomes of its matches. It matches the front of a sequence of values if equal variables meet
equal values and different variables different ones; the wildcard takes anything.
-/

namespace GrammarInduction

/-- One position of a pattern. -/
inductive PatternItem where
  | var (name : String)
  | wildcard
deriving DecidableEq, Repr

def PatternItem.text : PatternItem → String
  | var name => name
  | wildcard => "*"

/-- What a pattern took: as many values as it has items, and the positions of its wildcards. -/
structure PatternMatch where
  values : List String := []
  wildcards : List Nat := []
deriving DecidableEq, Repr

/-- The values that the wildcards took. -/
def PatternMatch.wildcardValues (m : PatternMatch) : List String :=
  m.wildcards.filterMap fun i => m.values[i]?

/-- Items and the thresholds for abstraction (`fire`) and for generalization (`wild`). -/
structure Pattern where
  items : List PatternItem
  fire : Binary64
  wild : Binary64
deriving DecidableEq, Repr

namespace Pattern

/-- The items, separated by spaces. -/
def source (p : Pattern) : String := " ".intercalate (p.items.map PatternItem.text)

/-- The clause that the pattern could have been read from. -/
def text (p : Pattern) : String :=
  ", ".intercalate [p.fire.text, p.wild.text, p.source]

/-- Walks items and values side by side from position `i`; gives the positions of wildcards. -/
def wildcardsFrom (b : Bindings) (i : Nat) : List PatternItem → List String → Option (List Nat)
  | [], _ => some []
  | _ :: _, [] => none
  | .wildcard :: items, _ :: values => (wildcardsFrom b (i + 1) items values).map (i :: ·)
  | .var name :: items, value :: values =>
    match b.unify name value with
    | .ok b => wildcardsFrom b (i + 1) items values
    | .error _ => none

/-- Matches the front of a sequence. A pattern without items matches nothing. -/
def match? (p : Pattern) (values : List String) : Option PatternMatch :=
  if p.items = [] then none
  else (wildcardsFrom {} 0 p.items values).map fun w => ⟨values.take p.items.length, w⟩

end Pattern

end GrammarInduction
