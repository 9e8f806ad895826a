import GrammarInduction.Grammar.Basic
import GrammarInduction.Json.Fields
import GrammarInduction.Json.Format

/-!
# Grammars as JSON

A grammar is written as the array of its rules; the start name is not part of the document. Loading
one goes past all its ids and induced names in the supply.
-/

namespace GrammarInduction

open Json

namespace Symbol

def toJson (s : Symbol) : Json :=
  ofFields [("val", ofString s.value), ("isTerminal", .bool s.terminal), ("id", ofNat s.id)]

def ofJson? : (levels : Nat) → Json → Option Symbol :=
  recordOf ["val", "isTerminal", "id"] 3 fun _ fields =>
    match fields with
    | [some value, some terminal, some id] => do
      return ⟨← string? value, ← bool? terminal, ← word? id⟩
    | _ => none

end Symbol

namespace Rule

def toJson (r : Rule) : Json :=
  ofFields
    [("lhs", ofString r.lhs), ("rhs", .array (r.rhs.map Symbol.toJson)), ("id", ofNat r.id)]

def ofJson? : (levels : Nat) → Json → Option Rule :=
  recordOf ["lhs", "rhs", "id"] 3 fun levels fields =>
    match fields with
    | [some lhs, some rhs, some id] => do
      return ⟨← string? lhs, ← listOf Symbol.ofJson? levels rhs, ← word? id⟩
    | _ => none

end Rule

namespace Grammar

def toJson (g : Grammar) : Json := .array (g.rules.map Rule.toJson)

def ofJson? (start : String) (v : Json) : Option Grammar :=
  (listOf Rule.ofJson? maxLevels v).map (ofRules start)

/-- The rules as a document. -/
def document (F : Format) (g : Grammar) : String := F.print g.toJson

/-- The grammar of a document of rules. -/
def ofDocument? (F : Format) (start text : String) : Option Grammar :=
  (F.parse? text).bind (ofJson? start)

end Grammar

end GrammarInduction
