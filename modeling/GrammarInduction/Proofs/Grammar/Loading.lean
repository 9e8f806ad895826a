import GrammarInduction.Grammar.Basic
import GrammarInduction.Proofs.Grammar.InducedName

/-!
# Rules that bring their ids

A rule that is appended with its ids moves the supply past them and past its name, and no further:
the supply of a grammar of given rules is the least one that is past all of them
(`Grammar.supply_ofRules_le_iff`). So its next numbers are the least ones above those in use
(`nextSymbol_ofRules_le_iff`, `nextRule_ofRules_le_iff`, `nextName_ofRules_le_iff`). Only the name
of the rule counts for its name, not the values on its right-hand side. A rule that the supply is
past already is appended without effect on it (`pushRule_of_past`).
-/

namespace GrammarInduction

namespace Supply

/-- `s'` has handed out whatever `s` has. -/
def Le (s s' : Supply) : Prop :=
  s.nextSymbol ≤ s'.nextSymbol ∧ s.nextRule ≤ s'.nextRule ∧ s.nextName ≤ s'.nextName

instance : LE Supply := ⟨Le⟩

theorem le_iff {s s' : Supply} : s ≤ s' ↔
    s.nextSymbol ≤ s'.nextSymbol ∧ s.nextRule ≤ s'.nextRule ∧ s.nextName ≤ s'.nextName := Iff.rfl

theorem le_refl (s : Supply) : s ≤ s := ⟨Nat.le_refl _, Nat.le_refl _, Nat.le_refl _⟩

theorem le_antisymm {s s' : Supply} (h : s ≤ s') (h' : s' ≤ s) : s = s' := by
  cases s
  cases s'
  simp only [le_iff, mk.injEq] at *
  omega

/-- The supply has gone past the ids and the name of a rule. -/
structure Past (s : Supply) (q : Rule) : Prop where
  symbols : ∀ x ∈ q.rhs, x.id < s.nextSymbol
  rule : q.id < s.nextRule
  name : ∀ n, nameNumber? q.lhs = some n → n < s.nextName

theorem Past.mono {s s' : Supply} {q : Rule} (h : s.Past q)
    (h₁ : s.nextSymbol ≤ s'.nextSymbol) (h₂ : s.nextRule ≤ s'.nextRule)
    (h₃ : s.nextName ≤ s'.nextName) : s'.Past q :=
  ⟨fun x hx => Nat.lt_of_lt_of_le (h.symbols x hx) h₁, Nat.lt_of_lt_of_le h.rule h₂,
    fun n hn => Nat.lt_of_lt_of_le (h.name n hn) h₃⟩

/-! ## Going past ids and names -/

theorem reserveSymbol_le_iff {s s' : Supply} {id : Nat} :
    s.reserveSymbol id ≤ s' ↔ s ≤ s' ∧ id < s'.nextSymbol := by
  simp only [le_iff, reserveSymbol]
  omega

theorem reserveRule_le_iff {s s' : Supply} {id : Nat} :
    s.reserveRule id ≤ s' ↔ s ≤ s' ∧ id < s'.nextRule := by
  simp only [le_iff, reserveRule]
  omega

theorem reserveName_le_iff {s s' : Supply} {name : String} :
    s.reserveName name ≤ s' ↔ s ≤ s' ∧ ∀ n, nameNumber? name = some n → n < s'.nextName := by
  unfold reserveName
  split
  · rename_i n hn
    simp only [le_iff, hn, Option.some.injEq, forall_eq']
    omega
  · rename_i hn
    simp [hn]

theorem foldl_reserveSymbol_le_iff {s' : Supply} : ∀ {xs : List Symbol} {s : Supply},
    xs.foldl (fun s x => s.reserveSymbol x.id) s ≤ s' ↔
      s ≤ s' ∧ ∀ x ∈ xs, x.id < s'.nextSymbol
  | [], s => by simp
  | x :: xs, s => by
    rw [List.foldl_cons, foldl_reserveSymbol_le_iff, reserveSymbol_le_iff, List.forall_mem_cons,
      and_assoc]

end Supply

namespace Grammar

/-! ## One rule -/

@[simp] theorem pushRule_rules (g : Grammar) (q : Rule) :
    (g.pushRule q).rules = g.rules ++ [q] := rfl

theorem supply_pushRule_le_iff {g : Grammar} {q : Rule} {s : Supply} :
    (g.pushRule q).supply ≤ s ↔ g.supply ≤ s ∧ s.Past q := by
  rw [pushRule, Supply.reserveName_le_iff, Supply.reserveRule_le_iff,
    Supply.foldl_reserveSymbol_le_iff, and_assoc, and_assoc]
  exact and_congr_right' ⟨fun ⟨h₁, h₂, h₃⟩ => ⟨h₁, h₂, h₃⟩, fun ⟨h₁, h₂, h₃⟩ => ⟨h₁, h₂, h₃⟩⟩

end Grammar

/-- Appending a rule that the supply is past leaves the supply alone. -/
theorem pushRule_of_past {g : Grammar} {q : Rule} (h : g.supply.Past q) :
    g.pushRule q = { g with rules := g.rules ++ [q] } := by
  have hle : (g.pushRule q).supply ≤ g.supply :=
    Grammar.supply_pushRule_le_iff.2 ⟨g.supply.le_refl, h⟩
  have hge : g.supply ≤ (g.pushRule q).supply :=
    (Grammar.supply_pushRule_le_iff.1 (Supply.le_refl _)).1
  show Grammar.mk g.start (g.rules ++ [q]) (g.pushRule q).supply = _
  rw [Supply.le_antisymm hle hge]

/-! ## Many rules -/

theorem foldl_pushRule {g : Grammar} : ∀ {new : List Rule} (rules : List Rule),
    (∀ q ∈ new, g.supply.Past q) →
    new.foldl Grammar.pushRule { g with rules } = { g with rules := rules ++ new }
  | [], _, _ => by rw [List.foldl_nil, List.append_nil]
  | q :: new, rules, h => by
    have hq := pushRule_of_past (g := { g with rules }) (h q List.mem_cons_self)
    have ih := foldl_pushRule (g := g) (rules ++ [q]) fun p hp => h p (.tail _ hp)
    rw [List.foldl_cons, hq]
    simpa only [List.append_assoc, List.singleton_append] using ih

namespace Grammar

theorem foldl_pushRule_start : ∀ (rules : List Rule) (g : Grammar),
    (rules.foldl pushRule g).start = g.start
  | [], _ => rfl
  | q :: rules, g => foldl_pushRule_start rules (g.pushRule q)

theorem foldl_pushRule_rules : ∀ (rules : List Rule) (g : Grammar),
    (rules.foldl pushRule g).rules = g.rules ++ rules
  | [], g => (List.append_nil _).symm
  | q :: rules, g => by
    rw [List.foldl_cons, foldl_pushRule_rules rules, pushRule_rules, List.append_assoc,
      List.singleton_append]

theorem supply_foldl_pushRule_le_iff {s : Supply} : ∀ {rules : List Rule} {g : Grammar},
    (rules.foldl pushRule g).supply ≤ s ↔ g.supply ≤ s ∧ ∀ q ∈ rules, s.Past q
  | [], g => by simp
  | q :: rules, g => by
    rw [List.foldl_cons, supply_foldl_pushRule_le_iff, supply_pushRule_le_iff,
      List.forall_mem_cons, and_assoc]

section
variable (start : String) (rules : List Rule)

@[simp] theorem ofRules_start : (ofRules start rules).start = start :=
  foldl_pushRule_start rules { start }

@[simp] theorem ofRules_rules : (ofRules start rules).rules = rules :=
  foldl_pushRule_rules rules { start }

variable {start rules}

/-- The supply is the least one that is past all rules. -/
theorem supply_ofRules_le_iff {s : Supply} :
    (ofRules start rules).supply ≤ s ↔ ∀ q ∈ rules, s.Past q := by
  rw [ofRules, supply_foldl_pushRule_le_iff]
  exact and_iff_right ⟨Nat.zero_le _, Nat.zero_le _, Nat.zero_le _⟩

theorem past_ofRules : ∀ q ∈ rules, (ofRules start rules).supply.Past q :=
  supply_ofRules_le_iff.1 (Supply.le_refl _)

theorem nextSymbol_ofRules_le_iff {n : Nat} : (ofRules start rules).supply.nextSymbol ≤ n ↔
    ∀ q ∈ rules, ∀ x ∈ q.rhs, x.id < n := by
  have h := @supply_ofRules_le_iff start rules { (ofRules start rules).supply with nextSymbol := n }
  rw [Supply.le_iff, and_iff_left ⟨Nat.le_refl _, Nat.le_refl _⟩] at h
  rw [h]
  refine forall₂_congr fun q hq => ⟨fun h => h.symbols, fun h => ⟨h, ?_, ?_⟩⟩
  · exact (past_ofRules q hq).rule
  · exact (past_ofRules q hq).name

theorem nextRule_ofRules_le_iff {n : Nat} : (ofRules start rules).supply.nextRule ≤ n ↔
    ∀ q ∈ rules, q.id < n := by
  have h := @supply_ofRules_le_iff start rules { (ofRules start rules).supply with nextRule := n }
  simp only [Supply.le_iff, Nat.le_refl, true_and, and_true] at h
  rw [h]
  refine forall₂_congr fun q hq => ⟨fun h => h.rule, fun h => ⟨?_, h, ?_⟩⟩
  · exact (past_ofRules q hq).symbols
  · exact (past_ofRules q hq).name

theorem nextName_ofRules_le_iff {n : Nat} : (ofRules start rules).supply.nextName ≤ n ↔
    ∀ q ∈ rules, ∀ m, nameNumber? q.lhs = some m → m < n := by
  have h := @supply_ofRules_le_iff start rules { (ofRules start rules).supply with nextName := n }
  simp only [Supply.le_iff, Nat.le_refl, true_and] at h
  rw [h]
  refine forall₂_congr fun q hq => ⟨fun h => h.name, fun h => ⟨?_, ?_, h⟩⟩
  · exact (past_ofRules q hq).symbols
  · exact (past_ofRules q hq).rule

end

end Grammar

end GrammarInduction
