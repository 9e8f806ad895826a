import GrammarInduction.Proofs.Grammar.Corpus
import GrammarInduction.Proofs.Induction.Iteration
import GrammarInduction.Proofs.Induction.PromotionLanguage

/-!
# Induction keeps grammars well formed

A promotion keeps the invariant `Grammar.Inv` (`Inv.promote`). A symbol of the grammar afterwards is
a symbol from before or a reference to a new rule (`Promotes.symbol_of_mem`), and no symbol is lost,
but moves into a new rule at most (`Promotes.exists_symbol`). New rules are referred to from rules
with the right-hand side they come from, so that references descend as they did before.

What promotions and single merges keep from grammars with the invariant, iterations keep
(`Engine.step_keeps`), and the invariant itself with it (`Engine.inv_of_iterate`). Grammars induced
from a corpus are well formed (`Engine.wellFormed_of_iterate`).
-/

namespace GrammarInduction

namespace Grammar.Inv

variable {g : Grammar}

theorem start_ne_inducedName (h : g.Inv) (n : Nat) : inducedName n ≠ g.start := by
  intro hn
  have hm := h.start
  rw [← hn, marked_inducedName] at hm
  cases hm

/-- No name that has still to be handed out is used. -/
theorem fresh (h : g.Inv) : g.Fresh := by
  have hlhs : ∀ r ∈ g.rules, ∀ n, g.supply.nextName ≤ n → inducedName n ≠ r.lhs := by
    intro r hr n hn he
    by_cases hs : r.lhs = g.start
    · exact h.start_ne_inducedName n (he.trans hs)
    · obtain ⟨k, hk, hrk⟩ := h.names r hr hs
      have := inducedName_injective (he.trans hrk)
      omega
  refine ⟨fun n _ => h.start_ne_inducedName n, hlhs, fun r hr n hn hv => ?_⟩
  obtain ⟨s, hs, hv⟩ := List.mem_map.1 hv
  have ht : s.terminal = false := by
    rw [h.kinds r hr s hs, hv, marked_inducedName]
    rfl
  obtain ⟨q, hq, hl⟩ := h.defined r hr s hs ht
  exact hlhs q hq n hn (hv.symm.trans hl.symm)

end Grammar.Inv

/-! ## Symbols before and after -/

namespace Promotes

variable {target : List String} {g g' : Grammar} {old new : List Rule}

/-- A symbol of an old rule has been there before or refers to a new rule made of such symbols. -/
theorem symbol_of_becomes {r r' : Rule} (hb : r.Becomes g.start target new r') {y : Symbol}
    (hy : y ∈ r'.rhs) : y ∈ r.rhs ∨ y.terminal = false ∧ ∃ q ∈ new, q.lhs = y.value ∧
      ∀ x ∈ q.rhs, ∃ z ∈ r.rhs, z.value = x.value ∧ z.terminal = x.terminal := by
  obtain ⟨seg, hseg, hsy⟩ := exists_left_of_forall₂ hb.rhs hy
  cases seg with
  | kept x =>
    rw [hsy]
    refine .inl ?_
    rw [← @flatMap_segments g.start target r]
    exact List.mem_flatMap.2 ⟨_, hseg, List.mem_singleton_self x⟩
  | hit body =>
    obtain ⟨ht, q, hq, hl, hs⟩ := hsy
    refine .inr ⟨ht, q, hq, hl, fun x hx => ?_⟩
    obtain ⟨z, hz, hzx⟩ := exists_shape hs hx
    exact ⟨z, mem_rhs_of_hit hseg z hz, hzx⟩

/-- The symbols of a new rule have been there before. -/
theorem symbol_of_new (h : Promotes target g g' old new) {q : Rule} (hq : q ∈ new) {x : Symbol}
    (hx : x ∈ q.rhs) :
    ∃ r ∈ g.rules, ∃ z ∈ r.rhs, z.value = x.value ∧ z.terminal = x.terminal := by
  obtain ⟨r, hr, ⟨body, hbody, hs⟩, -⟩ := h.source q hq
  obtain ⟨z, hz, hzx⟩ := exists_shape hs hx
  exact ⟨r, hr, z, mem_rhs_of_hit hbody z hz, hzx⟩

theorem symbol_of_mem (h : Promotes target g g' old new) {r' : Rule} (hr' : r' ∈ g'.rules)
    {y : Symbol} (hy : y ∈ r'.rhs) :
    (∃ r ∈ g.rules, ∃ z ∈ r.rhs, z.value = y.value ∧ z.terminal = y.terminal) ∨
      y.terminal = false ∧ ∃ q ∈ new, q.lhs = y.value := by
  rcases h.mem_rules.1 hr' with hr' | hr'
  · obtain ⟨r, hr, hb⟩ := h.exists_source hr'
    rcases symbol_of_becomes hb hy with hy | ⟨ht, q, hq, hl, -⟩
    · exact .inl ⟨r, hr, y, hy, rfl, rfl⟩
    · exact .inr ⟨ht, q, hq, hl⟩
  · exact .inl (h.symbol_of_new hr' hy)

/-- A symbol stays where it is or moves into a new rule. -/
theorem exists_symbol (h : Promotes target g g' old new) {r : Rule} (hr : r ∈ g.rules) {z : Symbol}
    (hz : z ∈ r.rhs) :
    ∃ r' ∈ g'.rules, ∃ y ∈ r'.rhs, y.value = z.value ∧ y.terminal = z.terminal := by
  obtain ⟨r', hr', hb⟩ := h.exists_old hr
  rw [← @flatMap_segments g.start target r, List.mem_flatMap] at hz
  obtain ⟨seg, hseg, hz⟩ := hz
  obtain ⟨y, hy, hsy⟩ := exists_right_of_forall₂ hb.rhs hseg
  cases seg with
  | kept x =>
    rw [Segment.symbols, List.mem_singleton] at hz
    exact ⟨r', h.mem_rules.2 (.inl hr'), y, hy, by rw [hsy, hz], by rw [hsy, hz]⟩
  | hit body =>
    obtain ⟨-, q, hq, -, hs⟩ := hsy
    obtain ⟨x, hx, hxz⟩ := @exists_shape body q.rhs hs.symm z hz
    exact ⟨q, h.mem_rules.2 (.inr hq), x, hx, hxz⟩

/-- No right-hand side becomes empty. -/
theorem rhs_ne (h : Promotes target g g' old new) (hne : ∀ r ∈ g.rules, r.rhs ≠ []) :
    ∀ r' ∈ g'.rules, r'.rhs ≠ [] := by
  intro r' hr' he
  rcases h.mem_rules.1 hr' with hr' | hr'
  · obtain ⟨r, hr, hb⟩ := h.exists_source hr'
    have hrhs := hb.rhs
    rw [he, List.forall₂_nil_right_iff] at hrhs
    refine hne r hr ?_
    rw [← @flatMap_segments g.start target r, hrhs, List.flatMap_nil]
  · obtain ⟨hne, hv⟩ := h.values_of_new hr'
    exact hne (by rw [← hv, Rule.values, he, List.map_nil])

end Promotes

/-! ## Promotions keep the invariant -/

namespace Grammar.Inv

variable {target : List String} {g g' : Grammar} {old new : List Rule}

section
variable (h : g.Inv) (hp : Promotes target g g' old new)
include h hp

theorem names_promote {r' : Rule} (hr' : r' ∈ g'.rules) (hs : r'.lhs ≠ g'.start) :
    ∃ n < g'.supply.nextName, r'.lhs = inducedName n := by
  rcases hp.mem_rules.1 hr' with hr' | hr'
  · obtain ⟨r, hr, hb⟩ := hp.exists_source hr'
    rw [hb.lhs, hp.start] at hs
    obtain ⟨n, hn, hl⟩ := h.names r hr hs
    exact ⟨n, by rw [hp.nextName]; omega, hb.lhs.trans hl⟩
  · obtain ⟨n, -, hn, hl⟩ := hp.name_of_new hr'
    exact ⟨n, hn, hl⟩

theorem one_promote {p' q' : Rule} (hp' : p' ∈ g'.rules) (hq' : q' ∈ g'.rules)
    (hl : p'.lhs = q'.lhs) (hs : p'.lhs ≠ g'.start) : p' = q' := by
  rcases hp.mem_rules.1 hq' with hqo | hqn
  · rcases hp.mem_rules.1 hp' with hpo | hpn
    · obtain ⟨p, hpg, hpb⟩ := hp.exists_source hpo
      obtain ⟨q, hqg, hqb⟩ := hp.exists_source hqo
      rw [hpb.lhs, hp.start] at hs
      have hpq := h.one p hpg q hqg (hpb.lhs.symm.trans (hl.trans hqb.lhs)) hs
      exact eq_of_id (hp.nodup_ids h.ids h.ids_lt) hp' hq' (by rw [hpb.id, hqb.id, hpq])
    · exact (hp.eq_of_lhs_new h.fresh hq' hpn hl.symm).symm
  · exact hp.eq_of_lhs_new h.fresh hp' hqn hl

theorem kinds_promote {r' : Rule} (hr' : r' ∈ g'.rules) : Kinded r'.rhs := by
  intro y hy
  rcases hp.symbol_of_mem hr' hy with ⟨r, hr, z, hz, hv, ht⟩ | ⟨ht, q, hq, hl⟩
  · rw [← hv, ← ht]
    exact h.kinds r hr z hz
  · obtain ⟨n, -, -, hn⟩ := hp.name_of_new hq
    rw [ht, ← hl, hn, marked_inducedName]
    rfl

theorem values_promote {r' : Rule} (hr' : r' ∈ g'.rules) {v : String} (hv : v ∈ r'.values) :
    '\x1f' ∉ v.toList := by
  obtain ⟨y, hy, rfl⟩ := List.mem_map.1 hv
  rcases hp.symbol_of_mem hr' hy with ⟨r, hr, z, hz, hv, -⟩ | ⟨-, q, hq, hl⟩
  · rw [← hv]
    exact h.values r hr _ (List.mem_map_of_mem hz)
  · obtain ⟨n, -, -, hn⟩ := hp.name_of_new hq
    rw [← hl, hn]
    exact separator_notMem_inducedName n

theorem defined_promote {r' : Rule} (hr' : r' ∈ g'.rules) {y : Symbol} (hy : y ∈ r'.rhs)
    (ht : y.terminal = false) : ∃ q ∈ g'.rules, q.lhs = y.value := by
  rcases hp.symbol_of_mem hr' hy with ⟨r, hr, z, hz, hv, hk⟩ | ⟨-, q, hq, hl⟩
  · obtain ⟨q, hq, hl⟩ := h.defined r hr z hz (hk.trans ht)
    obtain ⟨q', hq', hb⟩ := hp.exists_old hq
    exact ⟨q', hp.mem_rules.2 (.inl hq'), hb.lhs.trans (hl.trans hv)⟩
  · exact ⟨q, hp.mem_rules.2 (.inr hq), hl⟩

theorem used_promote {q' : Rule} (hq' : q' ∈ g'.rules) (hs : q'.lhs ≠ g'.start) :
    ∃ A, Refers g'.rules A q'.lhs := by
  rcases hp.mem_rules.1 hq' with hq' | hq'
  · obtain ⟨q, hq, hb⟩ := hp.exists_source hq'
    rw [hb.lhs, hp.start] at hs
    obtain ⟨A, r, hr, -, z, hz, ht, hv⟩ := h.used q hq hs
    obtain ⟨r', hr', y, hy, hyv, hyt⟩ := hp.exists_symbol hr hz
    exact ⟨_, r', hr', rfl, y, hy, hyt.trans ht, hyv.trans (hv.trans hb.lhs.symm)⟩
  · obtain ⟨-, -, -, r', hr', -, y, hy, ht, hv⟩ := hp.source q' hq'
    exact ⟨_, r', hp.mem_rules.2 (.inl hr'), rfl, y, hy, ht, hv⟩

theorem descends_promote : WellFounded (Function.swap (Refers g'.rules)) := by
  -- a reference that a new rule makes is one of the rule that it comes from
  have hacc : ∀ A, (∀ q ∈ new, q.lhs ≠ A) → Acc (Function.swap (Refers g'.rules)) A := by
    intro A
    induction A using h.descends.induction with
    | _ A ih =>
    intro hA
    have hold : ∀ B, Refers g.rules A B → Acc (Function.swap (Refers g'.rules)) B := by
      rintro B ⟨r, hr, hl, z, hz, ht, rfl⟩
      refine ih _ ⟨r, hr, hl, z, hz, ht, rfl⟩ fun q hq hql => ?_
      obtain ⟨p, hpg, hpl⟩ := h.defined r hr z hz ht
      exact hp.lhs_ne_of_new h.fresh hpg hq (hpl.trans hql.symm)
    refine ⟨_, fun B hB => ?_⟩
    obtain ⟨r', hr', hl, y, hy, ht, rfl⟩ := hB
    rcases hp.mem_rules.1 hr' with hr' | hr'
    · obtain ⟨r, hr, hb⟩ := hp.exists_source hr'
      have hl := hb.lhs.symm.trans hl
      rcases Promotes.symbol_of_becomes hb hy with hy | ⟨-, q, hq, hql, hsym⟩
      · exact hold _ ⟨r, hr, hl, y, hy, ht, rfl⟩
      · refine ⟨_, fun C hC => ?_⟩
        obtain ⟨p, hpm, hpl, x, hx, hxt, rfl⟩ := hC
        obtain rfl := hp.eq_of_lhs_new h.fresh hpm hq (hpl.trans hql.symm)
        obtain ⟨z, hz, hzv, hzt⟩ := hsym x hx
        exact hold _ ⟨r, hr, hl, z, hz, hzt.trans hxt, hzv⟩
    · exact absurd hl (hA r' hr')
  refine ⟨fun A => ⟨_, fun B hB => ?_⟩⟩
  by_cases hA : ∃ q ∈ new, q.lhs = A
  · obtain ⟨q, hq, rfl⟩ := hA
    obtain ⟨r', hr', hl, y, hy, ht, rfl⟩ := hB
    obtain rfl := hp.eq_of_lhs_new h.fresh hr' hq hl
    obtain ⟨r, hr, z, hz, hzv, hzt⟩ := hp.symbol_of_new hq hy
    obtain ⟨p, hpg, hpl⟩ := h.defined r hr z hz (hzt.trans ht)
    exact hacc _ fun w hw hwl => hp.lhs_ne_of_new h.fresh hpg hw (hpl.trans (hzv.trans hwl.symm))
  · exact (hacc A fun q hq hql => hA ⟨q, hq, hql⟩).inv hB

theorem promote : g'.Inv where
  start := by rw [hp.start]; exact h.start
  ids := hp.nodup_ids h.ids h.ids_lt
  ids_lt := hp.ids_lt h.ids_lt
  names := fun _ hr' hs => h.names_promote hp hr' hs
  one := fun _ hp' _ hq' hl hs => h.one_promote hp hp' hq' hl hs
  rhs_ne := hp.rhs_ne h.rhs_ne
  kinds := fun _ hr' => h.kinds_promote hp hr'
  values := fun _ hr' _ hv => h.values_promote hp hr' hv
  defined := fun _ hr' _ hy ht => h.defined_promote hp hr' hy ht
  used := fun _ hq' hs => h.used_promote hp hq' hs
  descends := h.descends_promote hp

end

end Grammar.Inv

/-! ## Iterations keep the invariant -/

namespace Engine

/-- Deduplication keeps what single merges keep. -/
theorem deduplicate_keeps {P : Grammar → Prop} (hinv : ∀ {g}, P g → g.Inv)
    (hmerge : ∀ {g r t}, P g → Mergeable g.start g.rules r t →
      P { g with rules := dissolve r.lhs t g.rules }) {g : Grammar} (h : P g) :
    P { g with rules := (mergeTwins g.start g.rules).2 } := by
  refine mergeTwins_induct (P := fun rules => P { g with rules }) (hinv h).ids (hinv h).separable
    ?_ h
  rintro rules rules' h ⟨hm⟩
  exact hmerge h hm

/-- An iteration succeeds and keeps what promotions and single merges keep. -/
theorem step_keeps {P : Grammar → Prop} (hinv : ∀ {g}, P g → g.Inv)
    (hpromote : ∀ {target g g' old new}, P g → Promotes target g g' old new → P g')
    (hmerge : ∀ {g r t}, P g → Mergeable g.start g.rules r t →
      P { g with rules := dissolve r.lhs t g.rules }) {e : Engine} (h : P e.grammar) :
    ∃ changed e', e.step = .ok (changed, e') ∧ P e'.grammar := by
  obtain ⟨n, g, hall, hg⟩ :=
    promoteAll_induct (fun h => (hinv h).ids) (fun _ _ _ _ _ _ => hpromote) h
  obtain ⟨e', hs, he', -, -⟩ := step_eq hall
  exact ⟨_, e', hs, he' ▸ deduplicate_keeps hinv hmerge hg⟩

theorem step_inv {e : Engine} (h : e.grammar.Inv) :
    ∃ changed e', e.step = .ok (changed, e') ∧ e'.grammar.Inv :=
  step_keeps (fun h => h) (fun h hp => h.promote hp) (fun h hm => h.merge hm) h

/-- The invariant holds wherever iterations lead. -/
theorem inv_of_iterate {e e' : Engine} {k : Nat} (h : e.grammar.Inv)
    (hk : e.iterate k = .ok e') : e'.grammar.Inv := by
  obtain ⟨e₁, hk₁, h₁⟩ := iterate_induct (P := fun e => e.grammar.Inv) step_inv k h
  rw [hk] at hk₁
  cases hk₁
  exact h₁

/-- Grammars induced from a corpus are well formed. -/
theorem wellFormed_of_iterate {e : Engine} {text start : String}
    (he : e.grammar = Grammar.ofCorpus text start) (hs : marked start = false) (k : Nat) :
    ∃ e', e.iterate k = .ok e' ∧ e'.grammar.WellFormed := by
  obtain ⟨e', hk, h'⟩ := iterate_induct (P := fun e => e.grammar.Inv) step_inv k
    (he ▸ Grammar.inv_ofCorpus text hs)
  exact ⟨e', hk, h'.wellFormed⟩

theorem wellFormed_of_iterate_pair :
    ∃ e', iterate 2
        { grammar := Grammar.ofCorpus "a b c\na b d" "S", patterns := [.pair] } = .ok e' ∧
      e'.grammar.WellFormed :=
  wellFormed_of_iterate rfl (by decide) 2

end Engine

end GrammarInduction
