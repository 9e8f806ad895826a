import GrammarInduction.Grammar.Rule

/-!
# Grammars

A grammar is a start name and an ordered list of rules; rules of one name are its alternatives. It
carries the supply that new rules and symbols take their ids from. Ids may repeat in a grammar that
was loaded: an operation by id then acts on the first rule that has it.
-/

namespace GrammarInduction

/-- Why an operation on a grammar fails. -/
inductive GrammarError where
  /-- A name that is to be expanded has no rule. -/
  | noAlternatives (name : String)
  /-- No rule has the id or the name of the replacement. -/
  | noReplaceTarget (name : String)
  /-- A derivation is nested more deeply than allowed. -/
  | tooDeep (limit : Nat)
deriving DecidableEq, Repr

def GrammarError.message : GrammarError → String
  | noAlternatives name => "no alternative rules for non-terminal " ++ name
  | noReplaceTarget name => "no matching rule to replace for " ++ name
  | tooDeep limit => "derivation exceeded depth limit of " ++ toString limit

/-- The start name of a grammar for which none is given. -/
def defaultStart : String := "_S_"

/-- A start name, the rules in order, and the supply of fresh ids and names. -/
structure Grammar where
  start : String := defaultStart
  rules : List Rule := []
  supply : Supply := {}
deriving DecidableEq, Repr

namespace Grammar

/-- One rule a line. -/
def text (g : Grammar) : String :=
  String.join (g.rules.map fun r => r.text ++ "\n")

/-! ## Looking up -/

/-- The first rule with the id. -/
def get? (g : Grammar) (id : Nat) : Option Rule := g.rules.find? (·.id == id)

/-- The rules of a name, in order. -/
def alternatives (g : Grammar) (name : String) : List Rule := g.rules.filter (·.lhs == name)

/-- The rules of a name that has to have some. -/
def lookup (g : Grammar) (name : String) : Except GrammarError (List Rule) :=
  match g.alternatives name with
  | [] => .error (.noAlternatives name)
  | r :: rest => .ok (r :: rest)

/-- The shapes of the rules in the order of shapes. -/
def sortedShapes (g : Grammar) : List (String × List String) :=
  (g.rules.map Rule.shape).mergeSort Rule.shapeLe

/-- Equality up to the order of the rules, ids and kinds of symbols. -/
def sameStructure (g h : Grammar) : Bool :=
  g.rules.length == h.rules.length && g.sortedShapes == h.sortedShapes

/-! ## Editing -/

/-- Appends a rule under a fresh id, which is returned. -/
def addRule (g : Grammar) (lhs : String) (rhs : List Symbol) : Nat × Grammar :=
  let (id, supply) := g.supply.takeRule
  (id, { g with rules := g.rules ++ [⟨lhs, rhs, id⟩], supply })

/-- Appends a rule that has its ids already, and goes past them and its name in the supply. -/
def pushRule (g : Grammar) (r : Rule) : Grammar :=
  let supply := r.rhs.foldl (fun s x => s.reserveSymbol x.id) g.supply
  { g with rules := g.rules ++ [r], supply := (supply.reserveRule r.id).reserveName r.lhs }

/-- A grammar of rules that have their ids already. -/
def ofRules (start : String) (rules : List Rule) : Grammar :=
  rules.foldl pushRule { start }

/-- Takes out the first rule of the same shape, which is returned. -/
def removeRule (g : Grammar) (r : Rule) : Option Rule × Grammar :=
  (g.rules.find? r.same, { g with rules := g.rules.eraseP r.same })

/-- Puts `r` in the place of the first rule that satisfies `p`, which is returned. -/
def replaceFirst (p : Rule → Bool) (r : Rule) : List Rule → Option (Rule × List Rule)
  | [] => none
  | q :: rest =>
    if p q then some (q, r :: rest)
    else (replaceFirst p r rest).map fun (old, rest) => (old, q :: rest)

/-- Puts `r` in the place of the first rule with its id, or else the first with its name. -/
def replaceRule (g : Grammar) (r : Rule) : Except GrammarError (Rule × Grammar) :=
  match (replaceFirst (·.id == r.id) r g.rules).or (replaceFirst (·.lhs == r.lhs) r g.rules) with
  | some (old, rules) => .ok (old, { g with rules })
  | none => .error (.noReplaceTarget r.lhs)

/-- Writes `new` for the value `old` on every right-hand side, and counts the symbols changed. -/
def replaceSymbol (g : Grammar) (old new : String) : Nat × Grammar :=
  ((g.rules.flatMap Rule.values).count old,
    { g with rules := g.rules.map (Rule.rename old new) })

end Grammar

end GrammarInduction
