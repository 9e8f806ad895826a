/-!
# Variable bindings

Bindings relate variables to values one to one: a variable keeps the value it first took, and two
variables never hold one value. They are a list of pairs, read from either side.
-/

namespace GrammarInduction

/-- Why a variable cannot take a value. -/
inductive UnifyError where
  /-- The variable holds another value. -/
  | conflict
  /-- Another variable holds the value. -/
  | collision
deriving DecidableEq, Repr

def UnifyError.message : UnifyError → String
  | conflict => "variable is already bound to a different value"
  | collision => "value is already bound to a different variable"

/-- Pairs of a variable and its value, in the order in which they were bound. -/
structure Bindings where
  pairs : List (String × String) := []
deriving DecidableEq, Repr

namespace Bindings

/-- The value that a variable holds. -/
def value? (b : Bindings) (name : String) : Option String :=
  (b.pairs.find? (·.1 == name)).map (·.2)

/-- The variable that holds a value. -/
def holder? (b : Bindings) (value : String) : Option String :=
  (b.pairs.find? (·.2 == value)).map (·.1)

/-- Binds a variable to a value, if that keeps the relation one to one. -/
def unify (b : Bindings) (name value : String) : Except UnifyError Bindings :=
  match b.value? name with
  | some bound => if bound = value then .ok b else .error .conflict
  | none =>
    match b.holder? value with
    | some _ => .error .collision
    | none => .ok ⟨b.pairs ++ [(name, value)]⟩

/-- The lexicographic order of pairs. -/
def pairLe (p q : String × String) : Bool :=
  p.1 < q.1 || (p.1 == q.1 && p.2 ≤ q.2)

/-- The pairs in ascending order. -/
def sorted (b : Bindings) : List (String × String) := b.pairs.mergeSort pairLe

/-- The pairs in ascending order between braces, with an arrow in each and commas between. -/
def text (b : Bindings) : String :=
  "\x7b" ++ ", ".intercalate (b.sorted.map fun p => p.1 ++ " -> " ++ p.2) ++ "\x7d"

end Bindings

end GrammarInduction
