import GrammarInduction.Derivation.Draws
import GrammarInduction.Proofs.Derivation.Outcome
import GrammarInduction.Proofs.Induction.Sentences

/-!
# Derivations that succeed

A derivation fails where a name has no rule or where names are nested more deeply than the limit. In
a well-formed grammar neither happens: every name has a rule, and as no name leads back to itself,
the names above one another are distinct (`Grammar.Above`), so there are at most as many levels as
rules (`Grammar.WellFormed.derivation`). Grammars induced from a corpus are of this kind
(`Engine.derivation_of_iterate`).
-/

namespace GrammarInduction

namespace Grammar

open Relation

/-- The names of `path` are distinct, have rules and lead to `name`. -/
structure Above (g : Grammar) (path : List String) (name : String) : Prop where
  nodup : path.Nodup
  defined : ∀ A ∈ path, ∃ r ∈ g.rules, r.lhs = A
  leads : ∀ A ∈ path, TransGen (Refers g.rules) A name

section
variable {g : Grammar} (h : g.WellFormed) {path : List String} {name : String}
  (ha : g.Above path name) (hn : ∃ r ∈ g.rules, r.lhs = name)
include h ha hn

theorem Above.self : (name :: path).Nodup ∧ ∀ A ∈ name :: path, ∃ r ∈ g.rules, r.lhs = A :=
  ⟨List.nodup_cons.2 ⟨fun hm => h.acyclic name (ha.leads name hm), ha.nodup⟩,
    List.forall_mem_cons.2 ⟨hn, ha.defined⟩⟩

/-- There are fewer names above a name than rules. -/
theorem Above.length_lt : path.length < g.rules.length := by
  obtain ⟨hnodup, hdef⟩ := ha.self h hn
  have hsub : name :: path ⊆ g.rules.map Rule.lhs := fun A hA => List.mem_map.2 (hdef A hA)
  have hle := hnodup.length_le_of_subset hsub
  rwa [List.length_map] at hle

theorem Above.cons {B : String} (hB : Refers g.rules name B) : g.Above (name :: path) B := by
  obtain ⟨hnodup, hdef⟩ := ha.self h hn
  exact ⟨hnodup, hdef, List.forall_mem_cons.2 ⟨.single hB, fun A hA => (ha.leads A hA).tail hB⟩⟩

end

namespace WellFormed

variable {σ : Type} {g : Grammar} (h : g.WellFormed) {c : Chooser σ} {limit : Nat}
include h

theorem exists_rule {r : Rule} {x : Symbol} (hr : r ∈ g.rules) (hx : x ∈ r.rhs)
    (ht : x.terminal = false) : ∃ q ∈ g.rules, q.lhs = x.value := by
  obtain ⟨q, hq⟩ := h.single r hr x hx ht
  exact ⟨q, mem_alternatives.1 (hq ▸ List.mem_singleton_self q)⟩

/-- A name is expanded if the levels make up for the names that are not above it. -/
theorem expandTree_ok : ∀ {levels : Nat} {path : List String} {parent : Option String}
    {name : String}, g.Above path name → (∃ r ∈ g.rules, r.lhs = name) →
      g.rules.length ≤ path.length + levels →
      ∀ s, ∃ t s', (g.expandTree c limit levels parent name).outcome s = (.ok t, s')
  | 0, path, parent, name, ha, hn, hle, s => by
    have := ha.length_lt h hn
    omega
  | levels + 1, path, parent, name, ha, hn, hle, s => by
    obtain ⟨r, s₁, hpick⟩ := exists_choose (c := c) hn s
    obtain ⟨hr, rfl⟩ := mem_of_choose hpick
    have hsymbol : ∀ x ∈ r.rhs, ∀ s, ∃ u s',
        (g.expandSymbol c limit levels r.lhs x).outcome s = (.ok u, s') := by
      rintro ⟨v, terminal, id⟩ hx s
      cases terminal with
      | true => exact ⟨_, s, rfl⟩
      | false =>
        have hbelow : g.Above (r.lhs :: path) v := ha.cons h hn ⟨r, hr, rfl, _, hx, rfl, rfl⟩
        refine expandTree_ok hbelow (h.exists_rule hr hx rfl) ?_ s
        rw [List.length_cons]
        omega
    obtain ⟨children, s', hchildren⟩ := Picking.exists_mapM hsymbol s₁
    exact ⟨_, s', expandTree_of_mapM hpick hchildren⟩

/-- With as many levels as rules, tree and words are derived, whatever is picked. -/
theorem derivation (hs : ∃ r ∈ g.rules, r.lhs = g.start) (hl : g.rules.length ≤ limit) (s : σ) :
    ∃ t s', (g.deriveTree c limit).outcome s = (.ok t, s') ∧
      (g.generate c limit).outcome s = (.ok t.leaves, s') := by
  have ha : g.Above [] g.start := ⟨.nil, nofun, nofun⟩
  obtain ⟨t, s', ht⟩ : ∃ t s', (g.deriveTree c limit).outcome s = (.ok t, s') :=
    h.expandTree_ok ha hs (by simpa using hl) s
  refine ⟨t, s', ht, ?_⟩
  rw [generate_eq_leaves, Picking.outcome_map, ht]
  rfl

end WellFormed

end Grammar

namespace Engine

/-- From a corpus with a token, every derivation with at least as many levels as rules succeeds,
after any number of iterations and whatever is picked. -/
theorem derivation_of_iterate {e : Engine} {text start : String}
    (he : e.grammar = Grammar.ofCorpus text start) (hs : marked start = false) {line : List Char}
    (hline : line ∈ text.toList.splitOn '\n') (htokens : Corpus.tokens line ≠ []) (k : Nat) :
    ∃ e', e.iterate k = .ok e' ∧ ∀ {σ : Type} (c : Chooser σ) (s : σ) (limit : Nat),
      e'.grammar.rules.length ≤ limit →
        (∃ ws s', (e'.grammar.generate c limit).outcome s = (.ok ws, s')) ∧
        ∃ t s', (e'.grammar.deriveTree c limit).outcome s = (.ok t, s') := by
  obtain ⟨e', hk, h⟩ := iterate_induct
    (P := fun e => e.grammar.Generates start (Corpus.sentences text)) step_generates k
    (he ▸ Grammar.generates_ofCorpus text hs)
  have hstart : ∃ r ∈ e'.grammar.rules, r.lhs = e'.grammar.start := by
    have hmem : Corpus.tokens line ∈ e'.grammar.language := by
      rw [h.language]
      exact Corpus.mem_sentences.2 ⟨htokens, line, hline, rfl⟩
    obtain ⟨r, hr, hl, -⟩ := hmem
    exact ⟨r, hr, hl⟩
  refine ⟨e', hk, fun c s limit hlimit => ?_⟩
  obtain ⟨t, s', htree, hwords⟩ := h.inv.wellFormed.derivation hstart hlimit s
  exact ⟨⟨_, s', hwords⟩, t, s', htree⟩

theorem derivation_of_iterate_pair :
    ['a', ' ', 'b', ' ', 'c'] ∈ "a b c\na b d".toList.splitOn '\n' ∧
      Corpus.tokens ['a', ' ', 'b', ' ', 'c'] ≠ [] ∧
      ∃ e', iterate 2
          { grammar := Grammar.ofCorpus "a b c\na b d" "S", patterns := [.pair] } = .ok e' ∧
        (∃ ws s', (e'.grammar.generate Draws.chooser e'.grammar.rules.length).outcome
          ⟨.mixing 7, 0⟩ = (.ok ws, s')) ∧
        ∃ t s', (e'.grammar.deriveTree Draws.chooser e'.grammar.rules.length).outcome
          ⟨.mixing 7, 0⟩ = (.ok t, s') := by
  have hline : ['a', ' ', 'b', ' ', 'c'] ∈ "a b c\na b d".toList.splitOn '\n' := by decide
  have htokens : Corpus.tokens ['a', ' ', 'b', ' ', 'c'] ≠ [] := by decide
  obtain ⟨e', hk, h⟩ := derivation_of_iterate (e := { patterns := [.pair], grammar := _ }) rfl
    (show marked "S" = false by decide) hline htokens 2
  exact ⟨hline, htokens, e', hk, h Draws.chooser ⟨.mixing 7, 0⟩ _ le_rfl⟩

end Engine

end GrammarInduction
