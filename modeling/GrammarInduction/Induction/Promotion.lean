import GrammarInduction.Grammar.Basic

/-!
# Promotion

Promoting a sequence of values abstracts it: wherever it stands in a right-hand side, a reference to
a new rule takes its place. Every place gets a rule of its own; merging equal rules is left to
deduplication. All places are found and all ids and names handed out before any rule is changed.
-/

namespace GrammarInduction

/-- A part of a right-hand side that is cut for promotion. -/
inductive Segment where
  | kept (s : Symbol)
  | hit (body : List Symbol)
deriving DecidableEq, Repr

/-- Cuts the hits of `target` out of a right-hand side, from left to right and without overlap. The
first `skip` symbols belong to a hit already. -/
def cutAfter (target : List String) : (skip : Nat) → List Symbol → List Segment
  | _, [] => []
  | skip + 1, _ :: rest => cutAfter target skip rest
  | 0, s :: rest =>
    let front := (s :: rest).take target.length
    if target ≠ [] ∧ front.map Symbol.value = target then
      .hit front :: cutAfter target (target.length - 1) rest
    else .kept s :: cutAfter target 0 rest

/-- Cuts a right-hand side at the hits of `target`. -/
def cut (target : List String) (rhs : List Symbol) : List Segment := cutAfter target 0 rhs

/-- A new rule for a hit, and the symbol that refers to it. The name is taken first, then the ids of
the symbols, of the rule and of the reference. -/
def Supply.mint (s : Supply) (body : List Symbol) : (Rule × Symbol) × Supply :=
  let (name, s) := s.takeName
  let (rhs, s) := s.relabel body
  let (id, s) := s.takeRule
  let (reference, s) := s.takeSymbol
  ((⟨name, rhs, id⟩, ⟨name, false, reference⟩), s)

/-- The right-hand side with a reference for each hit, and the new rules. -/
def Supply.assemble (s : Supply) : List Segment → (List Symbol × List Rule) × Supply
  | [] => (([], []), s)
  | .kept x :: rest =>
    let ((rhs, induced), s) := s.assemble rest
    ((x :: rhs, induced), s)
  | .hit body :: rest =>
    let ((rule, reference), s) := s.mint body
    let ((rhs, induced), s) := s.assemble rest
    ((reference :: rhs, rule :: induced), s)

/-- Whether a rule is searched for `target`. A rule that is the target as a whole abstracts it
already, unless it belongs to the start name. -/
def Rule.isCut (start : String) (target : List String) (r : Rule) : Bool :=
  target.length < r.rhs.length || (target.length == r.rhs.length && r.lhs == start)

/-- The rules with hits as they read afterwards, and all new rules. -/
def Supply.promoteIn (start : String) (target : List String) (s : Supply) :
    List Rule → (List Rule × List Rule) × Supply
  | [] => (([], []), s)
  | r :: rest =>
    if r.isCut start target then
      let ((rhs, new), s) := s.assemble (cut target r.rhs)
      let ((changed, induced), s) := s.promoteIn start target rest
      ((if new = [] then changed else { r with rhs } :: changed, new ++ induced), s)
    else s.promoteIn start target rest

namespace Grammar

/-- Abstracts a sequence of values everywhere, and counts the new rules. -/
def promote (g : Grammar) (target : List String) : Except GrammarError (Nat × Grammar) := do
  let ((changed, induced), supply) := g.supply.promoteIn g.start target g.rules
  let g ← changed.foldlM (fun g r => (g.replaceRule r).map (·.2)) { g with supply }
  return (induced.length, induced.foldl pushRule g)

end Grammar

end GrammarInduction
