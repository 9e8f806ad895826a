import GrammarInduction.Proofs.Induction.Termination

/-!
# An iteration that changes nothing

Promotions either leave a grammar as it is or make its rules lighter (`promoteAll_eq_or_lt`), and
deduplication never makes them heavier. As the structure of a grammar decides its weight, an
iteration that reports no change has promoted and merged nothing, so that the next one is like it,
and what fires stands only where promotion leaves it alone (`Engine.step_unchanged`).
-/

namespace GrammarInduction

/-! ## The weight of a grammar -/

namespace Grammar

/-- What the rules weigh together. -/
def weight (g : Grammar) : Nat := (g.rules.map (Rule.weight g.start)).sum

/-- Grammars of one structure have as many rules, which weigh the same. -/
theorem weight_eq_of_sameStructure {g h : Grammar} (hstart : g.start = h.start)
    (hs : g.sameStructure h = true) : g.rules.length = h.rules.length ∧ g.weight = h.weight := by
  rw [sameStructure_iff_perm] at hs
  have hweight : ∀ k : Grammar, k.start = g.start → k.weight = ((k.rules.map Rule.shape).map
      fun x => 2 * x.2.length - if x.1 = g.start then 2 else 3).sum := by
    intro k hk
    rw [weight, hk, List.map_map]
    refine congrArg List.sum (List.map_congr_left fun r _ => ?_)
    show _ = 2 * r.values.length - _
    rw [Rule.values, List.length_map]
    rfl
  constructor
  · simpa using hs.length_eq
  · rw [hweight g rfl, hweight h hstart.symm]
    exact (hs.map _).sum_eq

theorem weight_deduplicate (g : Grammar) : g.deduplicate.2.weight ≤ g.weight :=
  sum_weight_mergeTwins g.start g.rules

end Grammar

/-- A promotion that adds rules makes the others lighter by more than they weigh. -/
theorem Promotes.weight_lt {target : List String} {g g' : Grammar} {old new : List Rule}
    (h : Promotes target g g' old new) (ht : 2 ≤ target.length)
    (hstart : ∀ n, g.supply.nextName ≤ n → inducedName n ≠ g.start) (hnew : new ≠ []) :
    g'.weight < g.weight := by
  have hno : g.start ∉ new.map Rule.lhs := by
    intro hm
    obtain ⟨q, hq, hl⟩ := List.mem_map.1 hm
    obtain ⟨n, hn, -, he⟩ := h.name_of_new hq
    exact hstart n hn (he.symm.trans hl)
  have hsum := h.sum_weight ht
  rw [List.count_eq_zero_of_not_mem hno] at hsum
  have hpos := List.length_pos_iff.2 hnew
  simp only [Grammar.weight]
  omega

/-! ## Promotions -/

namespace Engine

/-- Where rules have distinct ids that have been handed out, and the start name is not handed out
any more, promotions find no hit and change nothing, or they make the rules lighter. -/
theorem promoteAll_eq_or_lt : ∀ {cs : List Candidate} {g : Grammar},
    (∀ c ∈ cs, 2 ≤ c.values.length) → (g.rules.map Rule.id).Nodup →
    (∀ r ∈ g.rules, r.id < g.supply.nextRule) →
    (∀ n, g.supply.nextName ≤ n → inducedName n ≠ g.start) →
    ∃ n g', promoteAll g cs = .ok (n, g') ∧ g'.start = g.start ∧
      ((g' = g ∧ ∀ c ∈ cs, ∀ r ∈ g.rules, hits (r.segments g.start c.values) = 0) ∨
        g'.weight < g.weight)
  | [], g, _, _, _, _ => ⟨0, g, rfl, rfl, .inl ⟨rfl, by simp⟩⟩
  | c :: cs, g, hc, hid, hlt, hstart => by
    obtain ⟨g₁, old, new, hp, h⟩ := promote_spec hid c.values
    obtain ⟨n, g', hall, hs', hcase⟩ :=
      promoteAll_eq_or_lt (fun d hd => hc d (.tail _ hd)) (h.nodup_ids hid hlt) (h.ids_lt hlt)
        fun n hn => by
          rw [h.start]
          exact hstart n (by rw [h.nextName] at hn; omega)
    refine ⟨new.length + n, g', promoteAll_cons hp hall, hs'.trans h.start, ?_⟩
    by_cases hnew : new = []
    · -- without a new rule the grammar is the same, and so is what the others do to it
      have hhits := h.hits_eq_zero hnew
      have hg : g₁ = g := by
        rw [promote_of_hits hhits] at hp
        simp only [Except.ok.injEq, Prod.mk.injEq] at hp
        exact hp.2.symm
      rw [hg] at hcase
      rcases hcase with ⟨he, hrest⟩ | hlt'
      · refine .inl ⟨he, fun d hd => ?_⟩
        rcases List.mem_cons.1 hd with rfl | hd
        · exact hhits
        · exact hrest d hd
      · exact .inr hlt'
    · have hlt₁ := h.weight_lt (hc c List.mem_cons_self) hstart hnew
      refine .inr ?_
      rcases hcase with ⟨rfl, -⟩ | hlt'
      · exact hlt₁
      · omega

/-! ## Iterations -/

/-- What fires depends on the grammar and the patterns alone, and so does what an iteration makes of
the grammar. -/
theorem step_congr {e d d' : Engine} {changed : Bool} (hg : e.grammar = d.grammar)
    (hp : e.patterns = d.patterns) {n : Nat} {g : Grammar}
    (hall : promoteAll d.grammar d.fired = .ok (n, g)) (h : d.step = .ok (changed, d')) :
    ∃ e', e.step = .ok (changed, e') ∧ e'.grammar = d'.grammar := by
  have hfired : e.fired = d.fired := by rw [fired, fired, collect, collect, hg, hp]
  obtain ⟨d₁, hd, hdg, -⟩ := step_eq hall
  rw [← hg, ← hfired] at hall
  obtain ⟨e₁, he, heg, -⟩ := step_eq hall
  rw [h, Except.ok.injEq, Prod.mk.injEq] at hd
  obtain ⟨rfl, rfl⟩ := hd
  rw [hg] at he
  exact ⟨e₁, he, heg.trans hdg.symm⟩

/-- An iteration that reports no change leaves the grammar as it is, down to ids and order, and so
does the next one; and what fires stands only as the whole of rules of other names than the start
name. -/
theorem step_unchanged {e e' : Engine} (hid : (e.grammar.rules.map Rule.id).Nodup)
    (hlt : ∀ r ∈ e.grammar.rules, r.id < e.grammar.supply.nextRule)
    (hstart : ∀ n, e.grammar.supply.nextName ≤ n → inducedName n ≠ e.grammar.start)
    (hp : ∀ p ∈ e.patterns, 2 ≤ p.items.length) (h : e.step = .ok (false, e')) :
    e'.grammar = e.grammar ∧
      (∃ e'', e'.step = .ok (false, e'') ∧ e''.grammar = e'.grammar) ∧
      ∀ c ∈ e.fired, ∀ r ∈ e'.grammar.rules, ∀ pre post, r.values = pre ++ c.values ++ post →
        pre = [] ∧ post = [] ∧ r.lhs ≠ e'.grammar.start := by
  have hlen : ∀ c ∈ e.fired, 2 ≤ c.values.length := by
    intro c hc
    obtain ⟨-, -, p, hpm, -, hl, -⟩ := of_mem_fired hc
    exact hl ▸ hp p hpm
  obtain ⟨n, g, hall, hgs, hcase⟩ := promoteAll_eq_or_lt hlen hid hlt hstart
  obtain ⟨e₁, hs, he₁, hpat, -⟩ := step_eq hall
  rw [h, Except.ok.injEq, Prod.mk.injEq, eq_comm, Bool.not_eq_false'] at hs
  obtain ⟨hsame, rfl⟩ := hs
  obtain ⟨hlength, hweight⟩ := Grammar.weight_eq_of_sameStructure (g := g.deduplicate.2) hgs hsame
  obtain ⟨rfl, hhits⟩ := hcase.resolve_right fun hlt => by
    have := g.weight_deduplicate
    omega
  have hg : e'.grammar = e.grammar := by
    rcases mergeTwins_eq_or_lt e.grammar.start e.grammar.rules with hm | hm
    · rw [he₁, hm]
    · exact absurd hlength hm.ne
  refine ⟨hg, ?_, ?_⟩
  · obtain ⟨e'', hs'', hg''⟩ := step_congr hg hpat hall h
    exact ⟨e'', hs'', hg''⟩
  · intro c hc r hr pre post hv
    have hne : c.values ≠ [] := List.length_pos_iff.1 (by have := hlen c hc; omega)
    rw [hg] at hr ⊢
    exact whole_of_hits hne (hhits c hc r hr) hv

/-- A grammar to which nothing is left to do. As the pattern is there twice, the two tokens of `$A0`
are counted twice and fire. -/
def settled : Engine where
  grammar :=
    { start := "S"
      rules :=
        [⟨"S", [⟨"$A0", false, 0⟩], 4⟩, ⟨"S", [⟨"c", true, 1⟩], 0⟩,
          ⟨"$A0", [⟨"a", true, 2⟩, ⟨"b", true, 3⟩], 2⟩]
      supply := ⟨4, 5, 1⟩ }
  patterns := [.pair, .pair]

theorem step_unchanged_settled :
    settled.fired.map Candidate.values = [["a", "b"]] ∧
      ∃ e', settled.step = .ok (false, e') ∧ e'.grammar = settled.grammar ∧
        (∃ e'', e'.step = .ok (false, e'') ∧ e''.grammar = e'.grammar) ∧
        ∀ c ∈ settled.fired, ∀ r ∈ e'.grammar.rules, ∀ pre post,
          r.values = pre ++ c.values ++ post → pre = [] ∧ post = [] ∧ r.lhs ≠ "S" := by
  refine ⟨by decide +kernel, ?_⟩
  have hall : (promoteAll settled.grammar settled.fired).toOption.map Prod.snd =
      some settled.grammar := by decide +kernel
  obtain ⟨⟨n, _⟩, hall, rfl⟩ := exists_ok_of_toOption_map hall
  obtain ⟨e', hs, -⟩ := step_eq hall
  rw [Grammar.sameStructure_of_rules (by decide +kernel)] at hs
  have hstart : ∀ n, 1 ≤ n → inducedName n ≠ "S" := by
    intro n _ hn
    have hm := marked_inducedName n
    rw [hn] at hm
    exact absurd hm (by decide)
  obtain ⟨hg, hnext, hwhole⟩ := step_unchanged (by decide) (by decide) hstart (by decide) hs
  exact ⟨e', hs, hg, hnext, hg ▸ hwhole⟩

end Engine

end GrammarInduction
