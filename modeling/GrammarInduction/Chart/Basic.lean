import GrammarInduction.Chart.Occurrence

/-!
# Charts

A chart counts occurrences by their values and pattern source, in the order in which these were
first seen. A candidate fires, or generalizes, if its count reaches the threshold of its pattern;
candidates are ranked by descending count, and those of one count by the order of discovery.
-/

namespace GrammarInduction

/-- All occurrences of some values under some pattern source. The thresholds are those of the
pattern of the first one. -/
structure Candidate where
  values : List String
  pattern : String
  fire : Binary64
  wild : Binary64
  discovery : Nat
  spans : List Span
deriving DecidableEq, Repr

namespace Candidate

def count (c : Candidate) : Nat := c.spans.length

def fires (c : Candidate) : Bool := c.fire.atMost c.count

def generalizes (c : Candidate) : Bool := c.wild.atMost c.count

/-- Whether an occurrence is counted by this candidate. -/
def covers (c : Candidate) (o : Occurrence) : Bool :=
  c.values == o.values && c.pattern == o.pattern

/-- Descending by count. -/
def rankedBefore (c d : Candidate) : Bool := d.count ≤ c.count

end Candidate

/-- Candidates in the order of their discovery. -/
structure Chart where
  candidates : List Candidate := []
deriving DecidableEq, Repr

namespace Chart

/-- Counts an occurrence of the pattern `p`; `discovery` numbers the first of the candidates. -/
def tally (o : Occurrence) (p : Pattern) (discovery : Nat) : List Candidate → List Candidate
  | [] => [⟨o.values, o.pattern, p.fire, p.wild, discovery, [o.span]⟩]
  | c :: cs =>
    if c.covers o then { c with spans := c.spans ++ [o.span] } :: cs
    else c :: tally o p (discovery + 1) cs

/-- Counts an occurrence, unless there is no pattern of its index. -/
def add (patterns : List Pattern) (chart : Chart) (o : Occurrence) : Chart :=
  match patterns[o.patternIndex]? with
  | some p => ⟨tally o p 0 chart.candidates⟩
  | none => chart

/-- The chart of occurrences of the patterns of a program. -/
def ofOccurrences (patterns : List Pattern) (occurrences : List Occurrence) : Chart :=
  occurrences.foldl (add patterns) {}

/-- How often the values were seen under a pattern source. -/
def countOf (chart : Chart) (values : List String) (pattern : String) : Nat :=
  match chart.candidates.find? fun c => c.pattern == pattern && c.values == values with
  | some c => c.count
  | none => 0

/-- The candidates that fire, ranked. -/
def fireRanking (chart : Chart) : List Candidate :=
  (chart.candidates.filter Candidate.fires).mergeSort Candidate.rankedBefore

/-- The candidates that generalize, ranked. -/
def wildRanking (chart : Chart) : List Candidate :=
  (chart.candidates.filter Candidate.generalizes).mergeSort Candidate.rankedBefore

end Chart

end GrammarInduction
