import GrammarInduction.Proofs.Grammar.Loading

/-!
# Requests to a supply

A supply is asked for ids and names, or to go past some. Counters are words: a request that would
move one to `2 ^ 64` is not served, and requests one after the other are served if each of them is
(`Supply.Fits`, `Supply.serveAll?`).

The supply never goes back (`Supply.le_serve`), so what it hands out it has not gone past before
(`Supply.fresh_of_mem_serveAll?`). A grammar of given rules therefore hands out none of their ids
(`Grammar.unused_of_mem_serveAll?`).
-/

namespace GrammarInduction

/-- A call on a supply, short of starting it anew. -/
inductive Request where
  | symbol
  | rule
  | name
  | reserveSymbol (id : Nat)
  | reserveRule (id : Nat)
  | reserveName (name : String)

/-- What a supply hands out. -/
inductive Issue where
  | symbol (id : Nat)
  | rule (id : Nat)
  | name (name : String)
deriving DecidableEq

/-- No rule has the rule id, and no symbol of a rule the symbol id. -/
def Issue.Unused (rules : List Rule) : Issue → Prop
  | symbol id => ∀ q ∈ rules, ∀ x ∈ q.rhs, x.id ≠ id
  | rule id => ∀ q ∈ rules, q.id ≠ id
  | name _ => True

namespace Supply

/-- What is handed out for a request, and the supply afterwards. -/
def serve (s : Supply) : Request → List Issue × Supply
  | .symbol => ([.symbol s.takeSymbol.1], s.takeSymbol.2)
  | .rule => ([.rule s.takeRule.1], s.takeRule.2)
  | .name => ([.name s.takeName.1], s.takeName.2)
  | .reserveSymbol id => ([], s.reserveSymbol id)
  | .reserveRule id => ([], s.reserveRule id)
  | .reserveName name => ([], s.reserveName name)

/-- The counter that the request moves stays a word. -/
def Fits (s : Supply) : Request → Prop
  | .symbol => s.nextSymbol + 1 < 2 ^ 64
  | .rule => s.nextRule + 1 < 2 ^ 64
  | .name => s.nextName + 1 < 2 ^ 64
  | .reserveSymbol id => id + 1 < 2 ^ 64
  | .reserveRule id => id + 1 < 2 ^ 64
  | .reserveName name => ∀ n ∈ nameNumber? name, n + 1 < 2 ^ 64

instance (s : Supply) : DecidablePred s.Fits
  | .symbol => inferInstanceAs (Decidable (_ < _))
  | .rule => inferInstanceAs (Decidable (_ < _))
  | .name => inferInstanceAs (Decidable (_ < _))
  | .reserveSymbol _ => inferInstanceAs (Decidable (_ < _))
  | .reserveRule _ => inferInstanceAs (Decidable (_ < _))
  | .reserveName _ => inferInstanceAs (Decidable (∀ _ ∈ _, _))

/-- What is handed out for a request, and the supply afterwards, if the counters stay words. -/
def serve? (s : Supply) (r : Request) : Option (List Issue × Supply) :=
  if s.Fits r then some (s.serve r) else none

/-- What is handed out for requests one after the other, and the supply afterwards, if all of them
are served. -/
def serveAll? (s : Supply) : List Request → Option (List Issue × Supply)
  | [] => some ([], s)
  | r :: rs => do
    let (issues, s) ← s.serve? r
    let (rest, s) ← s.serveAll? rs
    return (issues ++ rest, s)

theorem serve?_eq_some_iff {s : Supply} {r : Request} {p : List Issue × Supply} :
    s.serve? r = some p ↔ s.Fits r ∧ s.serve r = p := by
  rw [serve?, Option.ite_none_right_eq_some, Option.some.injEq]

theorem serveAll?_cons {s s' : Supply} {r : Request} {rs : List Request} {issues : List Issue}
    (h : s.serveAll? (r :: rs) = some (issues, s')) :
    s.Fits r ∧ ∃ rest, (s.serve r).2.serveAll? rs = some (rest, s') ∧
      issues = (s.serve r).1 ++ rest := by
  obtain ⟨p, hp, h⟩ := Option.bind_eq_some_iff.1 h
  obtain ⟨⟨rest, _⟩, hrest, h⟩ := Option.bind_eq_some_iff.1 h
  cases h
  obtain ⟨hfits, rfl⟩ := serve?_eq_some_iff.1 hp
  exact ⟨hfits, rest, hrest, rfl⟩

/-- The supply has not gone past what is handed out. -/
def Fresh (s : Supply) : Issue → Prop
  | .symbol id => s.nextSymbol ≤ id
  | .rule id => s.nextRule ≤ id
  | .name name => ∃ n, s.nextName ≤ n ∧ name = inducedName n

theorem le_trans {s s' s'' : Supply} (h : s ≤ s') (h' : s' ≤ s'') : s ≤ s'' :=
  ⟨Nat.le_trans h.1 h'.1, Nat.le_trans h.2.1 h'.2.1, Nat.le_trans h.2.2 h'.2.2⟩

theorem Fresh.anti {s s' : Supply} (h : s ≤ s') : ∀ {i : Issue}, s'.Fresh i → s.Fresh i
  | .symbol _, hi => Nat.le_trans h.1 hi
  | .rule _, hi => Nat.le_trans h.2.1 hi
  | .name _, ⟨n, hn, he⟩ => ⟨n, Nat.le_trans h.2.2 hn, he⟩

theorem le_serve (s : Supply) : ∀ r : Request, s ≤ (s.serve r).2
  | .symbol => ⟨Nat.le_succ _, Nat.le_refl _, Nat.le_refl _⟩
  | .rule => ⟨Nat.le_refl _, Nat.le_succ _, Nat.le_refl _⟩
  | .name => ⟨Nat.le_refl _, Nat.le_refl _, Nat.le_succ _⟩
  | .reserveSymbol _ => (reserveSymbol_le_iff.1 (le_refl _)).1
  | .reserveRule _ => (reserveRule_le_iff.1 (le_refl _)).1
  | .reserveName _ => (reserveName_le_iff.1 (le_refl _)).1

theorem fresh_of_mem_serve (s : Supply) : ∀ {r : Request} {i : Issue}, i ∈ (s.serve r).1 → s.Fresh i
  | .symbol, _, h => by
    cases List.mem_singleton.1 h
    exact Nat.le_refl _
  | .rule, _, h => by
    cases List.mem_singleton.1 h
    exact Nat.le_refl _
  | .name, _, h => by
    cases List.mem_singleton.1 h
    exact ⟨s.nextName, Nat.le_refl _, rfl⟩
  | .reserveSymbol _, _, h => by cases h
  | .reserveRule _, _, h => by cases h
  | .reserveName _, _, h => by cases h

theorem fresh_of_mem_serveAll? : ∀ {rs : List Request} {s s' : Supply} {issues : List Issue},
    s.serveAll? rs = some (issues, s') → ∀ i ∈ issues, s.Fresh i
  | [], s, _, _, h, i, hi => by
    cases h
    cases hi
  | r :: rs, s, s', issues, h, i, hi => by
    obtain ⟨-, rest, hrest, rfl⟩ := serveAll?_cons h
    rcases List.mem_append.1 hi with hi | hi
    · exact s.fresh_of_mem_serve hi
    · exact (fresh_of_mem_serveAll? hrest i hi).anti (s.le_serve r)

end Supply

/-- A grammar of given rules never hands out an id of theirs. -/
theorem Grammar.unused_of_mem_serveAll? {start : String} {rules : List Rule} {rs : List Request}
    {issues : List Issue} {s : Supply}
    (h : (ofRules start rules).supply.serveAll? rs = some (issues, s)) :
    ∀ i ∈ issues, i.Unused rules
  | .symbol _, hi => fun q hq x hx =>
    have hlt : x.id < (ofRules start rules).supply.nextSymbol := (past_ofRules q hq).symbols x hx
    Nat.ne_of_lt (Nat.lt_of_lt_of_le hlt (Supply.fresh_of_mem_serveAll? h _ hi))
  | .rule _, hi => fun q hq =>
    have hlt : q.id < (ofRules start rules).supply.nextRule := (past_ofRules q hq).rule
    Nat.ne_of_lt (Nat.lt_of_lt_of_le hlt (Supply.fresh_of_mem_serveAll? h _ hi))
  | .name _, _ => trivial

end GrammarInduction
