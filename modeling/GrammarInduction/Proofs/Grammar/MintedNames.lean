import GrammarInduction.Proofs.Grammar.Corpus
import GrammarInduction.Proofs.Grammar.Loading
import GrammarInduction.Proofs.Induction.PromotionLanguage

/-!
# Names in use that are handed out

`Grammar.captured count` are those of the next `count` induced names that the grammar uses already:
a rule induced under such a name defines or extends it. Lines of a corpus use no induced name, and
the supply goes past the names of loaded rules. But it goes past no other name, so that the start
name, a name or a value of an added rule and a value of a loaded rule are handed out when it is
their turn, and nothing else is (`Grammar.mem_captured_iff`).
-/

namespace GrammarInduction

theorem Supply.takeNames_eq : ∀ (count : Nat) (s : Supply),
    s.takeNames count = ((List.range' s.nextName count).map inducedName,
      { s with nextName := s.nextName + count })
  | 0, _ => rfl
  | count + 1, s => by
    unfold takeNames
    simp only [takeName, takeNames_eq count, List.range'_succ, List.map_cons, Nat.add_assoc,
      Nat.add_comm 1]

namespace Grammar

theorem mem_names {g : Grammar} {name : String} : name ∈ g.names ↔
    name = g.start ∨ ∃ r ∈ g.rules, name = r.lhs ∨ name ∈ r.values := by
  simp [names]

/-- Of the next `count` induced names those that are in use. -/
def captured (g : Grammar) (count : Nat) : List String :=
  (g.supply.takeNames count).1.filter (· ∈ g.names)

theorem mem_captured {g : Grammar} {count : Nat} {name : String} : name ∈ g.captured count ↔
    (∃ n, g.supply.nextName ≤ n ∧ n < g.supply.nextName + count ∧ name = inducedName n) ∧
      name ∈ g.names := by
  rw [captured, List.mem_filter, Supply.takeNames_eq, List.mem_map, decide_eq_true_eq]
  simp only [List.mem_range'_1, and_assoc, eq_comm (a := name)]

end Grammar

/-! ## Rules and corpora that are added -/

/-- A rule under a fresh id, or the lines of a corpus. -/
inductive Addition where
  | rule (lhs : String) (rhs : List Symbol)
  | corpus (text : String)

/-- The names and values that come with an addition, apart from the start name. -/
def Addition.names : Addition → List String
  | rule lhs rhs => lhs :: rhs.map Symbol.value
  | corpus text => (Corpus.sentences text).flatten

theorem Addition.of_marked {a : Addition} {name : String} (h : name ∈ a.names)
    (hm : marked name = true) :
    ∃ lhs rhs, a = rule lhs rhs ∧ (name = lhs ∨ name ∈ rhs.map Symbol.value) := by
  cases a with
  | rule lhs rhs => exact ⟨lhs, rhs, rfl, List.mem_cons.1 h⟩
  | corpus text =>
    obtain ⟨ws, hws, hname⟩ := List.mem_flatten.1 h
    obtain ⟨-, line, -, rfl⟩ := Corpus.mem_sentences.1 hws
    rw [(Corpus.isToken_of_mem_tokens hname).unmarked] at hm
    cases hm

namespace Grammar

/-- The grammar with an addition. -/
def plus (g : Grammar) : Addition → Grammar
  | .rule lhs rhs => (g.addRule lhs rhs).2
  | .corpus text => (g.loadCorpus text).2

theorem mem_names_addRule {g : Grammar} {lhs name : String} {rhs : List Symbol} :
    name ∈ (g.addRule lhs rhs).2.names ↔
      name ∈ g.names ∨ name = lhs ∨ name ∈ rhs.map Symbol.value := by
  simp [names, addRule, Rule.values, or_assoc]

theorem mem_names_addSentence {g : Grammar} {ws : List String} {name : String} :
    name ∈ (g.addSentence ws).names ↔ name ∈ g.names ∨ name ∈ ws := by
  have hvalues : (g.supply.issue (ws.map fun t => (t, true))).1.map Symbol.value = ws := by
    rw [← map_fst_shape, Supply.issue_shapes, List.map_map]
    exact List.map_id ws
  have hstart : name = g.start → name ∈ g.names := fun h => mem_names.2 (.inl h)
  rw [addSentence, mem_names_addRule, hvalues]
  show name ∈ g.names ∨ name = g.start ∨ name ∈ ws ↔ _
  rw [← or_assoc, or_iff_left_of_imp hstart]

theorem mem_names_foldl_addSentence {name : String} : ∀ {ss : List (List String)} {g : Grammar},
    name ∈ (ss.foldl addSentence g).names ↔ name ∈ g.names ∨ name ∈ ss.flatten
  | [], g => by simp
  | ws :: ss, g => by
    rw [List.foldl_cons, mem_names_foldl_addSentence, mem_names_addSentence, List.flatten_cons,
      List.mem_append, or_assoc]

theorem mem_names_plus {g : Grammar} {a : Addition} {name : String} :
    name ∈ (g.plus a).names ↔ name ∈ g.names ∨ name ∈ a.names := by
  cases a with
  | rule lhs rhs => rw [plus, mem_names_addRule, Addition.names, List.mem_cons]
  | corpus text => exact mem_names_foldl_addSentence

theorem nextName_foldl_addSentence : ∀ (ss : List (List String)) (g : Grammar),
    (ss.foldl addSentence g).supply.nextName = g.supply.nextName
  | [], _ => rfl
  | ws :: ss, g => nextName_foldl_addSentence ss (g.addSentence ws)

/-- No addition takes a name. -/
theorem nextName_plus (g : Grammar) (a : Addition) :
    (g.plus a).supply.nextName = g.supply.nextName := by
  cases a with
  | rule => rfl
  | corpus text => exact nextName_foldl_addSentence _ g

theorem foldl_plus {name : String} : ∀ {additions : List Addition} {g : Grammar},
    (additions.foldl plus g).supply.nextName = g.supply.nextName ∧
      (name ∈ (additions.foldl plus g).names ↔
        name ∈ g.names ∨ ∃ a ∈ additions, name ∈ a.names)
  | [], g => by simp
  | a :: additions, g => by
    obtain ⟨hnext, hnames⟩ := @foldl_plus name additions (g.plus a)
    rw [List.foldl_cons, hnext, nextName_plus, hnames, mem_names_plus, List.exists_mem_cons_iff,
      or_assoc]
    exact ⟨rfl, Iff.rfl⟩

/-! ## Which names are captured -/

/-- With additions alone, the next names are the first ones, and those of them are captured that are
the start name or come with an added rule. -/
theorem mem_captured_plus {start name : String} {additions : List Addition} {count : Nat} :
    name ∈ (additions.foldl plus { start }).captured count ↔
      (∃ n < count, name = inducedName n) ∧ (name = start ∨ ∃ lhs rhs,
        .rule lhs rhs ∈ additions ∧ (name = lhs ∨ name ∈ rhs.map Symbol.value)) := by
  obtain ⟨hnext, hnames⟩ := @foldl_plus name additions { start }
  have hempty : name ∈ Grammar.names { start } ↔ name = start := by simp [names]
  rw [mem_captured, hnext, hnames, hempty]
  simp only [Nat.zero_le, true_and, Nat.zero_add]
  refine and_congr_right fun hn => or_congr_right ?_
  constructor
  · rintro ⟨a, ha, hname⟩
    obtain ⟨n, -, rfl⟩ := hn
    obtain ⟨lhs, rhs, rfl, hused⟩ := Addition.of_marked hname (marked_inducedName n)
    exact ⟨lhs, rhs, ha, hused⟩
  · rintro ⟨lhs, rhs, ha, hused⟩
    exact ⟨_, ha, List.mem_cons.2 hused⟩

/-- The names of loaded rules are not captured, but their values are. -/
theorem mem_captured_ofRules {start name : String} {rules : List Rule} {count : Nat}
    (hword : (ofRules start rules).supply.nextName + count ≤ 2 ^ 64) :
    name ∈ (ofRules start rules).captured count ↔
      (∃ n, (∀ r ∈ rules, ∀ m, nameNumber? r.lhs = some m → m < n) ∧
        n < (ofRules start rules).supply.nextName + count ∧ name = inducedName n) ∧
      (name = start ∨ ∃ r ∈ rules, name ∈ r.values) := by
  rw [mem_captured, mem_names, ofRules_start, ofRules_rules]
  simp only [nextName_ofRules_le_iff]
  refine and_congr_right fun ⟨n, hpast, hlt, hn⟩ => or_congr_right ?_
  refine exists_congr fun r => and_congr_right fun hr => or_iff_right fun hl => ?_
  have hnum := nameNumber?_inducedName n
  rw [if_pos (by omega), ← hn, hl] at hnum
  exact absurd (hpast r hr n hnum) (Nat.lt_irrefl n)

/-- The names that are captured in a grammar that has been built up or loaded; the numbers of names
fit in a word. -/
theorem mem_captured_iff (start name : String) (count : Nat) :
    (∀ additions : List Addition, name ∈ (additions.foldl plus { start }).captured count ↔
      (∃ n < count, name = inducedName n) ∧ (name = start ∨ ∃ lhs rhs,
        .rule lhs rhs ∈ additions ∧ (name = lhs ∨ name ∈ rhs.map Symbol.value))) ∧
    ∀ rules : List Rule, (ofRules start rules).supply.nextName + count ≤ 2 ^ 64 →
      (name ∈ (ofRules start rules).captured count ↔
        (∃ n, (∀ r ∈ rules, ∀ m, nameNumber? r.lhs = some m → m < n) ∧
          n < (ofRules start rules).supply.nextName + count ∧ name = inducedName n) ∧
        (name = start ∨ ∃ r ∈ rules, name ∈ r.values)) :=
  ⟨fun _ => mem_captured_plus, fun _ => mem_captured_ofRules⟩

/-- A line refers to two induced names, of which the second one has a rule. -/
def dangling : List Rule :=
  [⟨"S", [⟨"$B0", false, 0⟩, ⟨"$A0", false, 1⟩], 0⟩, ⟨"$A0", [⟨"a", true, 2⟩], 1⟩]

theorem mem_captured_iff_dangling :
    (ofRules "S" dangling).supply.nextName + 2 ≤ 2 ^ 64 ∧
      ("$B0" ∈ (ofRules "S" dangling).captured 2 ↔
        (∃ n, (∀ r ∈ dangling, ∀ m, nameNumber? r.lhs = some m → m < n) ∧
          n < (ofRules "S" dangling).supply.nextName + 2 ∧ "$B0" = inducedName n) ∧
        ("$B0" = "S" ∨ ∃ r ∈ dangling, "$B0" ∈ r.values)) :=
  have hword : (ofRules "S" dangling).supply.nextName + 2 ≤ 2 ^ 64 := by decide
  ⟨hword, (mem_captured_iff "S" "$B0" 2).2 dangling hword⟩

/-- The next name may be the start name, the name or a value of an added rule, or a value of a
loaded rule, and promotion then gives a rule to it. -/
theorem captured_ne_nil :
    Grammar.captured { start := "$A0" } 1 = ["$A0"] ∧
      (plus {} (.rule "$A0" [⟨"a", true, 0⟩])).captured 1 = ["$A0"] ∧
      (plus {} (.rule "S" [⟨"$A0", false, 0⟩])).captured 1 = ["$A0"] ∧
      (ofRules "S" dangling).captured 1 = ["$B0"] ∧
      ((ofRules "S" [⟨"S", [⟨"a", true, 0⟩, ⟨"b", true, 1⟩, ⟨"$A0", false, 2⟩], 0⟩]).promote
        ["a", "b"]).toOption.map (fun p => p.2.rules.map Rule.shape) =
        some [("S", ["$A0", "$A0"]), ("$A0", ["a", "b"])] := by
  decide

end Grammar

end GrammarInduction
