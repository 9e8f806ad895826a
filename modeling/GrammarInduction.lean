import GrammarInduction.Chart.Json
import GrammarInduction.Chart.Queue
import GrammarInduction.Derivation.Draws
import GrammarInduction.Derivation.Json
import GrammarInduction.Grammar.Json
import GrammarInduction.Induction.Engine
import GrammarInduction.Proofs.Chart.Aggregation
import GrammarInduction.Proofs.Chart.Index
import GrammarInduction.Proofs.Chart.Ranking
import GrammarInduction.Proofs.Chart.Renaming
import GrammarInduction.Proofs.Derivation.Export
import GrammarInduction.Proofs.Derivation.Limit
import GrammarInduction.Proofs.Derivation.Outcome
import GrammarInduction.Proofs.Derivation.Success
import GrammarInduction.Proofs.Derivation.Tree
import GrammarInduction.Proofs.Grammar.Corpus
import GrammarInduction.Proofs.Grammar.DeduplicateLanguage
import GrammarInduction.Proofs.Grammar.Editing
import GrammarInduction.Proofs.Grammar.InducedName
import GrammarInduction.Proofs.Grammar.Language
import GrammarInduction.Proofs.Grammar.Lines
import GrammarInduction.Proofs.Grammar.Loading
import GrammarInduction.Proofs.Grammar.Merge
import GrammarInduction.Proofs.Grammar.MergeLanguage
import GrammarInduction.Proofs.Grammar.MergeOrder
import GrammarInduction.Proofs.Grammar.MintedNames
import GrammarInduction.Proofs.Grammar.NameRequests
import GrammarInduction.Proofs.Grammar.References
import GrammarInduction.Proofs.Grammar.Renaming
import GrammarInduction.Proofs.Grammar.Representatives
import GrammarInduction.Proofs.Grammar.Requests
import GrammarInduction.Proofs.Grammar.Saving
import GrammarInduction.Proofs.Grammar.Structure
import GrammarInduction.Proofs.Grammar.Survivors
import GrammarInduction.Proofs.Grammar.WellFormed
import GrammarInduction.Proofs.Induction.Cap
import GrammarInduction.Proofs.Induction.Collection
import GrammarInduction.Proofs.Induction.Consumption
import GrammarInduction.Proofs.Induction.Convergence
import GrammarInduction.Proofs.Induction.Copies
import GrammarInduction.Proofs.Induction.Effect
import GrammarInduction.Proofs.Induction.Iteration
import GrammarInduction.Proofs.Induction.Keys
import GrammarInduction.Proofs.Induction.Multiplicity
import GrammarInduction.Proofs.Induction.Nesting
import GrammarInduction.Proofs.Induction.Ownership
import GrammarInduction.Proofs.Induction.Packing
import GrammarInduction.Proofs.Induction.Pass
import GrammarInduction.Proofs.Induction.Promotion
import GrammarInduction.Proofs.Induction.PromotionLanguage
import GrammarInduction.Proofs.Induction.Reloading
import GrammarInduction.Proofs.Induction.Renaming
import GrammarInduction.Proofs.Induction.RuleCount
import GrammarInduction.Proofs.Induction.Segments
import GrammarInduction.Proofs.Induction.Sentences
import GrammarInduction.Proofs.Induction.SymbolIds
import GrammarInduction.Proofs.Induction.Termination
import GrammarInduction.Proofs.Induction.Tokens
import GrammarInduction.Proofs.Induction.WellFormed
import GrammarInduction.Proofs.Json.Fields
import GrammarInduction.Proofs.Json.Lexeme
import GrammarInduction.Proofs.Json.RoundTrip
import GrammarInduction.Proofs.Lists
import GrammarInduction.Proofs.Number.Reading
import GrammarInduction.Proofs.Number.Rounding
import GrammarInduction.Proofs.Pattern.Bindings
import GrammarInduction.Proofs.Pattern.Layout
import GrammarInduction.Proofs.Pattern.Lexeme
import GrammarInduction.Proofs.Pattern.Maps
import GrammarInduction.Proofs.Pattern.Matching
import GrammarInduction.Proofs.Pattern.Parser
import GrammarInduction.Proofs.Pattern.Printing
import GrammarInduction.Proofs.Pattern.Program
import GrammarInduction.Proofs.Pattern.Rejection
import GrammarInduction.Proofs.Pattern.Renaming
import GrammarInduction.Proofs.Sorting
