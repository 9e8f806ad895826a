import GrammarInduction.Grammar.Basic
import GrammarInduction.Text.Class

/-!
# Corpora

A corpus has one example a line. A line is cleaned of all characters but letters, numbers,
underscores, white space and the marks that end a sentence, and then cut into tokens at its white
space. A line with tokens becomes a rule of the start name whose symbols are the tokens.
-/

namespace GrammarInduction

namespace Corpus

/-- A character that cleaning leaves in a line. -/
def keeps (c : Char) : Bool :=
  Text.isAlphanumeric c || c == '_' || Text.isBlank c || c == '.' || c == '!' || c == '?'

def clean (line : List Char) : List Char := line.filter keeps

/-- The pieces of a cleaned line between white space, without the empty ones. -/
def tokens (line : List Char) : List String :=
  (((clean line).splitOnP Text.isBlank).filter (· ≠ [])).map String.ofList

/-- The tokens of each line that has any. -/
def sentences (text : String) : List (List String) :=
  ((text.toList.splitOn '\n').map tokens).filter (· ≠ [])

end Corpus

namespace Grammar

/-- Appends a rule of the start name that spells the tokens. -/
def addSentence (g : Grammar) (tokens : List String) : Grammar :=
  let (rhs, supply) := g.supply.issue (tokens.map fun t => (t, true))
  ({ g with supply }.addRule g.start rhs).2

/-- Appends a rule for each line with tokens, and counts them. -/
def loadCorpus (g : Grammar) (text : String) : Nat × Grammar :=
  let sentences := Corpus.sentences text
  (sentences.length, sentences.foldl addSentence g)

/-- The grammar of a corpus alone. -/
def ofCorpus (text start : String) : Grammar :=
  (loadCorpus { start } text).2

end Grammar

end GrammarInduction
