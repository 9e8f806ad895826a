/-!
# Derivation trees

A node has a name, the name of its parent, and children. Terminals are leaves; a non-terminal that
was expanded to nothing has no children either, but is no leaf.
-/

namespace GrammarInduction

inductive Tree where
  | node (name : String) (parent : Option String) (terminal : Bool) (children : List Tree)
deriving Repr

namespace Tree

mutual

/-- The names of the terminal leaves, left to right. -/
def leaves : Tree → List String
  | node name _ terminal children =>
    if children.isEmpty then (if terminal then [name] else []) else leavesOf children

/-- The leaves of several trees. -/
def leavesOf : List Tree → List String
  | [] => []
  | t :: ts => leaves t ++ leavesOf ts

end

mutual

/-- The number of nodes on the longest path from the root. -/
def depth : Tree → Nat
  | node _ _ _ children => 1 + depthOf children

/-- The depth of the deepest of several trees. -/
def depthOf : List Tree → Nat
  | [] => 0
  | t :: ts => max (depth t) (depthOf ts)

end

end Tree

end GrammarInduction
