import GrammarInduction.Chart.Occurrence
import GrammarInduction.Json.Fields
import GrammarInduction.Json.Format

/-!
# Occurrences as JSON

An occurrence is written with its key, but without the position of its pattern and its wildcards.
-/

namespace GrammarInduction

open Json

namespace Span

def toJson (s : Span) : Json :=
  ofFields [("ruleId", ofNat s.rule), ("start", ofNat s.first), ("end", ofNat s.last)]

def ofJson? : (levels : Nat) → Json → Option Span :=
  recordOf ["ruleId", "start", "end"] 3 fun _ fields =>
    match fields with
    | [some rule, some first, some last] => do
      return ⟨← word? rule, ← word? first, ← word? last⟩
    | _ => none

end Span

/-- The part of an occurrence that is written. -/
structure OccurrenceRecord where
  key : String
  values : List String
  pattern : String
  span : Span
deriving DecidableEq, Repr

def Occurrence.record (o : Occurrence) : OccurrenceRecord := ⟨o.key, o.values, o.pattern, o.span⟩

namespace OccurrenceRecord

def toJson (o : OccurrenceRecord) : Json :=
  ofFields
    [("key", ofString o.key), ("matchedSequence", .array (o.values.map ofString)),
     ("pattern", ofString o.pattern), ("coordinate", o.span.toJson)]

def ofJson? : (levels : Nat) → Json → Option OccurrenceRecord :=
  recordOf ["key", "matchedSequence", "pattern", "coordinate"] 4 fun levels fields =>
    match fields with
    | [some key, some values, some pattern, some span] => do
      return ⟨← string? key, ← listOf (fun _ => string?) levels values, ← string? pattern,
        ← Span.ofJson? levels span⟩
    | _ => none

end OccurrenceRecord

/-- Occurrences as a document. -/
def Occurrence.document (F : Format) (occurrences : List Occurrence) : String :=
  F.print (.array (occurrences.map fun o => o.record.toJson))

/-- The written parts of occurrences, from a document. -/
def OccurrenceRecord.ofDocument? (F : Format) (text : String) : Option (List OccurrenceRecord) :=
  (F.parse? text).bind (listOf ofJson? maxLevels)

end GrammarInduction
