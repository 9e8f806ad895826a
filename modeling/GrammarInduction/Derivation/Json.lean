import GrammarInduction.Derivation.Tree
import GrammarInduction.Json.Fields
import GrammarInduction.Json.Format

/-!
# Derivation trees as JSON

A node is written with its name, its parent's name or null, and its children if it has any. That a
node is terminal is not written, so no node that is read is terminal.
-/

namespace GrammarInduction.Tree

open Json

mutual

def toJson : Tree → Json
  | node name parent _ children =>
    ofFields
      ([("name", ofString name), ("parent", (parent.map ofString).getD .null)] ++
        if children.isEmpty then [] else [("children", .array (listToJson children))])

def listToJson : List Tree → List Json
  | [] => []
  | t :: ts => toJson t :: listToJson ts

end

/-- The name of a parent, which may be null or missing. -/
def parent? : Option Json → Option (Option String)
  | none => some none
  | some .null => some none
  | some v => (string? v).map some

def ofJson? : (levels : Nat) → Json → Option Tree
  | 0, _ => none
  | levels + 1, v =>
    match fields? ["name", "parent", "children"] 2 v with
    | some [some name, parent, none] => do
      return .node (← string? name) (← parent? parent) false []
    | some [some name, parent, some (.array children)] =>
      match levels with
      | 0 => none
      | levels + 1 => do
        return .node (← string? name) (← parent? parent) false (← children.mapM (ofJson? levels))
    | _ => none

/-- The tree as a document. -/
def document (F : Format) (t : Tree) : String := F.print t.toJson

/-- The tree of a document. -/
def ofDocument? (F : Format) (text : String) : Option Tree :=
  (F.parse? text).bind (ofJson? maxLevels)

end GrammarInduction.Tree
