import GrammarInduction.Json.Printer
import GrammarInduction.Json.Reader

/-!
# Formats of documents

How a value is printed and how a document is read is left open. The format that is used indents its
lines; all that is asked of one is that it reads what it has printed, or that it does not print two
values alike (`Format.ReadsBack`, `Format.Injective`).
-/

namespace GrammarInduction.Json

/-- Values that data are turned into. -/
inductive Written : Json → Prop
  | null : Written null
  | bool (b : Bool) : Written (bool b)
  | word {n : Nat} : n < Nat.pow 2 64 → Written (ofNat n)
  | string (s : String) : Written (ofString s)
  | array {vs : List Json} : (∀ v ∈ vs, Written v) → Written (array vs)
  | fields {fs : List (String × Json)} : (∀ f ∈ fs, Written f.2) → Written (ofFields fs)

/-- How values are printed and documents read. -/
structure Format where
  print : Json → String
  parse? : String → Option Json

namespace Format

/-- The document of the value is read as that value. -/
def ReadsBack (F : Format) (v : Json) : Prop := F.parse? (F.print v) = some v

/-- Different values of data have different documents. -/
def Injective (F : Format) : Prop :=
  ∀ {v w : Json}, Written v → Written w → F.print v = F.print w → v = w

/-- Lines that are indented by two spaces for each level. -/
def indented : Format := ⟨pretty, Json.parse?⟩

end Format

end GrammarInduction.Json
