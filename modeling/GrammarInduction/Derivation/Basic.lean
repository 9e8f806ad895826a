import GrammarInduction.Derivation.Tree
import GrammarInduction.Grammar.Basic

/-!
# Random derivations

A non-terminal is expanded by one of its alternatives, picked by a chooser whose state is threaded
through the derivation. Expansion goes depth first and from left to right, so the words and the tree
that start from one state spend the same picks. Every nesting level counts against a limit; the
limit is checked before the name is looked up, and the name before anything is picked.
-/

namespace GrammarInduction

/-- A way to pick an index below `n + 1` that keeps a state of type `σ`. -/
structure Chooser (σ : Type) where
  pick : (n : Nat) → σ → Fin (n + 1) × σ

/-- A computation that picks, and may fail; the state after a failure remains known. -/
abbrev Picking (σ : Type) := ExceptT GrammarError (StateM σ)

namespace Grammar

variable {σ : Type}

/-- An alternative of the name. -/
def choose (g : Grammar) (c : Chooser σ) (name : String) : Picking σ Rule :=
  match g.alternatives name with
  | [] => throw (.noAlternatives name)
  | r :: rest => do
    let i ← modifyGet (c.pick rest.length)
    return (r :: rest).get i

/-- Expands a name to terminals, at most `levels` deep; `limit` is what a failure reports. -/
def expandFlat (g : Grammar) (c : Chooser σ) (limit : Nat) :
    (levels : Nat) → (name : String) → Picking σ (List Symbol)
  | 0, _ => throw (.tooDeep limit)
  | levels + 1, name => do
    let rule ← g.choose c name
    let parts ← rule.rhs.mapM fun s =>
      if s.terminal then pure [s] else g.expandFlat c limit levels s.value
    return parts.flatten

/-- Expands a name to a tree, at most `levels` deep. -/
def expandTree (g : Grammar) (c : Chooser σ) (limit : Nat) :
    (levels : Nat) → (parent : Option String) → (name : String) → Picking σ Tree
  | 0, _, _ => throw (.tooDeep limit)
  | levels + 1, parent, name => do
    let rule ← g.choose c name
    let children ← rule.rhs.mapM fun s =>
      if s.terminal then pure (Tree.node s.value (some name) true [])
      else g.expandTree c limit levels (some name) s.value
    return .node name parent false children

/-- Terminals derived from the start name. -/
def derive (g : Grammar) (c : Chooser σ) (limit : Nat) : Picking σ (List Symbol) :=
  g.expandFlat c limit limit g.start

/-- The words of a derivation from the start name. -/
def generate (g : Grammar) (c : Chooser σ) (limit : Nat) : Picking σ (List String) := do
  let symbols ← g.derive c limit
  return symbols.map Symbol.value

/-- The tree of a derivation from the start name. -/
def deriveTree (g : Grammar) (c : Chooser σ) (limit : Nat) : Picking σ Tree :=
  g.expandTree c limit limit none g.start

end Grammar

end GrammarInduction
