import GrammarInduction.Grammar.Json
import GrammarInduction.Proofs.Derivation.Outcome
import GrammarInduction.Proofs.Grammar.Requests
import GrammarInduction.Proofs.Grammar.Structure
import GrammarInduction.Proofs.Json.Fields

/-!
# Grammars are saved and loaded

The document of a grammar is read as the value that it was written for, and from this value each
rule and each symbol is read back, if their ids are words (`Grammar.ofDocument?_document`). What is
loaded has the rules of what was saved, so it has its structure, its text and its derivations, and
none of its ids is handed out (`Grammar.Reproduces`, `Grammar.loaded_of_saved`). The format of the
document is any that reads the rules it has printed (`Grammar.ReadsRules`).
-/

namespace GrammarInduction

open Json

/-! ## Symbols and rules -/

namespace Symbol

theorem written {x : Symbol} (h : x.id < 2 ^ 64) : Written x.toJson :=
  .fields (List.forall_mem_cons.2 ⟨.string _, List.forall_mem_cons.2 ⟨.bool _,
    List.forall_mem_singleton.2 (.word h)⟩⟩)

theorem ofJson?_toJson {x : Symbol} (h : x.id < 2 ^ 64) (levels : Nat) :
    ofJson? (levels + 1) x.toJson = some x := by
  rw [ofJson?, toJson, recordOf_ofFields]
  · simp only [List.map_cons, List.map_nil, string?_ofString, bool?, word?_ofNat h]
    rfl
  · rfl
  · decide

end Symbol

namespace Rule

/-- The ids of the rule and of its symbols are words below the greatest one. -/
def HasWords (r : Rule) : Prop := r.id < 2 ^ 64 - 1 ∧ ∀ x ∈ r.rhs, x.id < 2 ^ 64 - 1

instance : DecidablePred HasWords := fun _ => inferInstanceAs (Decidable (_ ∧ _))

theorem HasWords.word {r : Rule} (h : r.HasWords) : r.id < 2 ^ 64 :=
  Nat.lt_trans h.1 (by decide)

theorem HasWords.words {r : Rule} (h : r.HasWords) {x : Symbol} (hx : x ∈ r.rhs) : x.id < 2 ^ 64 :=
  Nat.lt_trans (h.2 x hx) (by decide)

theorem written {r : Rule} (h : r.HasWords) : Written r.toJson := by
  have hrhs : Written (.array (r.rhs.map Symbol.toJson)) :=
    .array (List.forall_mem_map.2 fun x hx => Symbol.written (h.words hx))
  exact .fields (List.forall_mem_cons.2 ⟨.string _, List.forall_mem_cons.2 ⟨hrhs,
    List.forall_mem_singleton.2 (.word h.word)⟩⟩)

/-- Three levels are enough: for the rule, its right-hand side and the symbols there. -/
theorem ofJson?_toJson {r : Rule} (h : r.HasWords) (levels : Nat) :
    ofJson? (levels + 3) r.toJson = some r := by
  have hrhs : listOf Symbol.ofJson? (levels + 2) (.array (r.rhs.map Symbol.toJson)) = some r.rhs :=
    listOf_array fun x hx => Symbol.ofJson?_toJson (h.words hx) levels
  rw [ofJson?, toJson, recordOf_ofFields]
  · simp only [List.map_cons, List.map_nil, string?_ofString, hrhs, word?_ofNat h.word]
    rfl
  · rfl
  · decide

end Rule

/-! ## Grammars -/

namespace Grammar

/-- Rules whose ids are words are read from their document. -/
def ReadsRules (F : Format) : Prop :=
  ∀ rules : List Rule, (∀ r ∈ rules, r.HasWords) → F.ReadsBack (.array (rules.map Rule.toJson))

theorem readsRules_indented : ReadsRules .indented := fun _ h =>
  (Written.array (List.forall_mem_map.2 fun r hr => Rule.written (h r hr))).readsBack

/-- A grammar is loaded from its document with the rules that it has. -/
theorem ofDocument?_document {F : Format} (hF : ReadsRules F) {g : Grammar}
    (h : ∀ r ∈ g.rules, r.HasWords) (start : String) :
    ofDocument? F start (g.document F) = some (ofRules start g.rules) := by
  have hrules : listOf Rule.ofJson? maxLevels g.toJson = some g.rules :=
    listOf_array fun r hr => Rule.ofJson?_toJson (h r hr) 123
  have hread : F.parse? (F.print g.toJson) = some g.toJson := hF g.rules h
  rw [ofDocument?, document, hread, Option.bind_some, ofJson?, hrules]
  rfl

/-- `h` has the rules of `g` in their order, and with them its structure, its text and its
derivations. Its next ids are words, and whatever is asked of its supply, no id of these rules is
handed out. -/
structure Reproduces (h g : Grammar) : Prop where
  start : h.start = g.start
  rules : h.rules = g.rules
  structure_eq : h.sameStructure g = true
  text : h.text = g.text
  derive : ∀ {σ : Type} (c : Chooser σ) (limit : Nat), h.derive c limit = g.derive c limit
  generate : ∀ {σ : Type} (c : Chooser σ) (limit : Nat), h.generate c limit = g.generate c limit
  deriveTree : ∀ {σ : Type} (c : Chooser σ) (limit : Nat),
    h.deriveTree c limit = g.deriveTree c limit
  nextSymbol_lt : h.supply.nextSymbol < 2 ^ 64
  nextRule_lt : h.supply.nextRule < 2 ^ 64
  unused : ∀ (requests : List Request) (issues : List Issue) (s : Supply),
    h.supply.serveAll? requests = some (issues, s) → ∀ i ∈ issues, i.Unused g.rules

theorem reproduces_ofRules {g : Grammar} (h : ∀ r ∈ g.rules, r.HasWords) :
    (ofRules g.start g.rules).Reproduces g := by
  have hstart := ofRules_start g.start g.rules
  have hrules := ofRules_rules g.start g.rules
  have hderive : ∀ {σ : Type} (c : Chooser σ) (limit : Nat),
      (ofRules g.start g.rules).derive c limit = g.derive c limit := fun c limit => by
    rw [derive, derive, hstart, expandFlat_congr hrules]
  exact {
    start := hstart
    rules := hrules
    structure_eq := sameStructure_of_rules hrules
    text := by rw [text, text, hrules]
    derive := hderive
    generate := fun c limit => by rw [generate, generate, hderive]
    deriveTree := fun c limit => by
      rw [deriveTree, deriveTree, hstart, expandTree_congr hrules]
    nextSymbol_lt := Nat.lt_succ_of_le
      (nextSymbol_ofRules_le_iff.2 fun r hr x hx => (h r hr).2 x hx)
    nextRule_lt := Nat.lt_succ_of_le (nextRule_ofRules_le_iff.2 fun r hr => (h r hr).1)
    unused := fun _ _ _ => unused_of_mem_serveAll? }

/-- A grammar is loaded from its document as one that reproduces it, if its ids are words; and rules
that are loaded are saved as they were. -/
theorem loaded_of_saved {F : Format} (hF : ReadsRules F) :
    (∀ g : Grammar, (∀ r ∈ g.rules, r.HasWords) →
      ∃ h : Grammar, ofDocument? F g.start (g.document F) = some h ∧ h.Reproduces g) ∧
    ∀ (start : String) (rules : List Rule), (ofRules start rules).rules = rules :=
  ⟨fun g hg => ⟨_, ofDocument?_document hF hg g.start, reproduces_ofRules hg⟩, ofRules_rules⟩

/-- Values with quotes, controls and letters beyond a word of 16 bits, rules without symbols and
under an induced name, and ids that repeat or are as large as they may be. -/
def unordinary : Grammar where
  start := "Σ"
  rules := [⟨"\"\\\n", [⟨"\x01", true, 7⟩, ⟨"", false, 7⟩], 18446744073709551614⟩, ⟨"$B2", [], 3⟩,
    ⟨"Σ", [⟨"𝔸", true, 18446744073709551614⟩], 3⟩]

theorem loaded_of_saved_unordinary :
    ReadsRules .indented ∧ (∀ r ∈ unordinary.rules, r.HasWords) ∧
      ∃ h : Grammar, ofDocument? .indented unordinary.start (unordinary.document .indented) =
        some h ∧ h.Reproduces unordinary :=
  have hwords : ∀ r ∈ unordinary.rules, r.HasWords := by decide
  ⟨readsRules_indented, hwords, (loaded_of_saved readsRules_indented).1 unordinary hwords⟩

end Grammar

end GrammarInduction
