import GrammarInduction.Grammar.Basic
import GrammarInduction.Json.Fields
import GrammarInduction.Json.Format

/-!
# Settings of the induction engine

Settings are read from JSON; those that are missing keep their defaults.
-/

namespace GrammarInduction

/-- Settings; no cap on iterations is written as 0. -/
structure Config where
  maxIterations : Nat := 0
  maxDerivationDepth : Nat := 256
  startSymbol : String := defaultStart
deriving DecidableEq, Repr

namespace Config

/-- A setting, which may be missing but has to be well formed. -/
def setting {α : Type} (read : Json → Option α) (default : α) : Option Json → Option α
  | none => some default
  | some v => read v

def ofJson? : (levels : Nat) → Json → Option Config :=
  Json.recordOf ["max_iterations", "max_derivation_depth", "start_symbol"] 0 fun _ fields =>
    let d : Config := {}
    match fields with
    | [iterations, depth, start] => do
      return ⟨← setting Json.word? d.maxIterations iterations,
        ← setting Json.word? d.maxDerivationDepth depth,
        ← setting Json.string? d.startSymbol start⟩
    | _ => none

/-- The settings of a document. -/
def ofDocument? (F : Json.Format) (text : String) : Option Config :=
  (F.parse? text).bind (ofJson? Json.maxLevels)

end Config

end GrammarInduction
