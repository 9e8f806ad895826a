import GrammarInduction.Chart.Basic
import GrammarInduction.Derivation.Basic
import GrammarInduction.Grammar.Corpus
import GrammarInduction.Grammar.Deduplicate
import GrammarInduction.Induction.Config
import GrammarInduction.Induction.Promotion
import GrammarInduction.Pattern.Program

/-!
# The induction engine

An iteration finds the occurrences of all patterns in all rules, charts them, promotes the
candidates that fire in the order of their rank, and merges equal rules. A run iterates until an
iteration leaves the structure of the grammar unchanged or the cap on iterations is reached.
-/

namespace GrammarInduction

/-- What all iterations so far add up to. -/
structure Stats where
  iterations : Nat := 0
  records : Nat := 0
  fired : Nat := 0
  induced : Nat := 0
  merged : Nat := 0
deriving DecidableEq, Repr

/-- How a run ends. -/
inductive Outcome where
  /-- The last iteration changed nothing. -/
  | converged
  /-- The cap was reached after a change. -/
  | maxIterations
deriving DecidableEq, Repr

/-- Why an engine cannot be built or used. -/
inductive InductionError where
  | pattern (e : ProgramError)
  | grammar (e : GrammarError)
  | emptyCorpus
  | noPatterns
deriving DecidableEq, Repr

def InductionError.message : InductionError → String
  | pattern e => "pattern program: " ++ e.message
  | grammar e => "grammar: " ++ e.message
  | emptyCorpus => "corpus contains no usable lines"
  | noPatterns => "pattern program contains no clauses"

/-- A grammar under induction; `records` are the occurrences found by the last iteration. -/
structure Engine where
  grammar : Grammar
  patterns : List Pattern
  config : Config := {}
  records : List Occurrence := []
  stats : Stats := {}
deriving DecidableEq, Repr

namespace Engine

/-- All occurrences, ordered by rule, then pattern, then position. -/
def collect (e : Engine) : List Occurrence :=
  e.grammar.rules.flatMap fun r =>
    e.patterns.zipIdx.flatMap fun (p, index) => p.occurrencesIn index r

/-- Promotes candidates one after the other, and counts the new rules. -/
def promoteAll (g : Grammar) : List Candidate → Except GrammarError (Nat × Grammar)
  | [] => .ok (0, g)
  | c :: cs => do
    let (n, g) ← g.promote c.values
    let (k, g) ← promoteAll g cs
    return (n + k, g)

/-- One iteration, and whether it changed the structure of the grammar. -/
def step (e : Engine) : Except GrammarError (Bool × Engine) := do
  let records := e.collect
  let fired := (Chart.ofOccurrences e.patterns records).fireRanking
  let (induced, grammar) ← promoteAll e.grammar fired
  let (merged, grammar) := grammar.deduplicate
  let stats : Stats :=
    { iterations := e.stats.iterations + 1
      records := e.stats.records + records.length
      fired := e.stats.fired + fired.length
      induced := e.stats.induced + induced
      merged := e.stats.merged + merged }
  return (!grammar.sameStructure e.grammar, { e with grammar, records, stats })

/-- Whether the cap on iterations is reached. -/
def atCap (e : Engine) : Bool :=
  0 < e.config.maxIterations && e.config.maxIterations ≤ e.stats.iterations

/-- Iterates `budget` times at most; no outcome means that the budget was spent before an end. -/
def runWithin : (budget : Nat) → Engine → Except GrammarError (Option Outcome × Engine)
  | 0, e => .ok (none, e)
  | budget + 1, e => do
    let (changed, e) ← e.step
    if !changed then return (some .converged, e)
    else if e.atCap then return (some .maxIterations, e)
    else runWithin budget e

/-- Compiles a program and loads a corpus into a given or an empty grammar. A given grammar keeps
its start name, which the settings then take over. -/
def build (program : String) (config : Config) (corpus : Option String) (grammar : Option Grammar) :
    Except InductionError Engine := do
  let patterns ← (parseProgram program).mapError .pattern
  if patterns = [] then throw .noPatterns
  let grammar := grammar.getD { start := config.startSymbol }
  let config := { config with startSymbol := grammar.start }
  let grammar := match corpus with
    | some text => (grammar.loadCorpus text).2
    | none => grammar
  if grammar.rules = [] then throw .emptyCorpus
  return { grammar, patterns, config }

end Engine

end GrammarInduction
