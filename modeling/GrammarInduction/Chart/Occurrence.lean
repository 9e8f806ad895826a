import GrammarInduction.Grammar.Rule
import GrammarInduction.Pattern.Basic

/-!
# Occurrences

An occurrence says that a pattern matched a span of a rule.
-/

namespace GrammarInduction

/-- The matched values, the source and the position in the program of the pattern, the span and the
positions of wildcards among the values. -/
structure Occurrence where
  values : List String
  pattern : String
  patternIndex : Nat
  span : Span
  wildcards : List Nat
deriving DecidableEq, Repr

namespace Occurrence

/-- What occurrences are counted by, as text: `a b | X Y`. -/
def key (o : Occurrence) : String := " ".intercalate o.values ++ " | " ++ o.pattern

/-- The key and the place, `a b | X Y @ r0[0..=1]`. -/
def text (o : Occurrence) : String := o.key ++ " @ " ++ o.span.text

end Occurrence

/-- The occurrences of a pattern in one rule, from left to right. -/
def Pattern.occurrencesIn (p : Pattern) (index : Nat) (r : Rule) : List Occurrence :=
  (List.range r.rhs.length).filterMap fun i =>
    (p.match? (r.values.drop i)).map fun m =>
      ⟨m.values, p.source, index, ⟨r.id, i, i + m.values.length - 1⟩, m.wildcards⟩

end GrammarInduction
