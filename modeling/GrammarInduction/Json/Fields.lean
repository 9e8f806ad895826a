import GrammarInduction.Json.Reader
import GrammarInduction.Number.Decimal

/-!
# Reading data out of JSON

A record is read from an object, whose members may come in any order and among others that are
ignored, or from an array of its fields in their order. A known member that comes twice is an error.
Values that are wanted may be nested to 127 levels; values that are ignored, to any.
-/

namespace GrammarInduction.Json

/-- The nesting up to which values are read. -/
def maxLevels : Nat := 127

def string? : Json → Option String
  | string codes => text? codes
  | _ => none

/-- A number without sign, point or exponent, below `2 ^ 64`. -/
def word? : Json → Option Nat
  | number literal => Decimal.word? literal
  | _ => none

def bool? : Json → Option Bool
  | bool b => some b
  | _ => none

/-- The items of an array, read one level deeper. -/
def listOf {α : Type} (item : Nat → Json → Option α) : (levels : Nat) → Json → Option (List α)
  | levels + 1, array items => items.mapM (item levels)
  | _, _ => none

/-- The value of the member `name`, if there is one; an error if there are two. -/
def member? (members : List (String × Json)) (name : String) : Option (Option Json) :=
  match members.filter (·.1 == name) with
  | [] => some none
  | [(_, v)] => some (some v)
  | _ => none

/-- The fields of a record under their names, as far as they are present. An array has to hold the
first `least` of them, and no more than all. -/
def fields? (names : List String) (least : Nat) : Json → Option (List (Option Json))
  | object members => do
    let members ← members.mapM fun (k, v) => (text? k).map fun name => (name, v)
    names.mapM (member? members)
  | array items =>
    if least ≤ items.length ∧ items.length ≤ names.length then
      some (names.zipIdx.map fun (_, i) => items[i]?)
    else none
  | _ => none

/-- Reads a record whose fields lie one level deeper. -/
def recordOf {α : Type} (names : List String) (least : Nat)
    (build : Nat → List (Option Json) → Option α) : (levels : Nat) → Json → Option α
  | 0, _ => none
  | levels + 1, v => (fields? names least v).bind (build levels)

end GrammarInduction.Json
