import GrammarInduction.Proofs.Grammar.MergeLanguage
import GrammarInduction.Proofs.Induction.Copies

/-!
# Induction keeps the sentences of a corpus

A grammar induced from a corpus derives the sentences of the corpus and nothing else, after any
number of iterations (`Engine.language_of_iterate`).

From the first iteration on, every sentence has one line (`Engine.lines_of_iterate`). Copies of a
line unfold alike at the end of a pass of promotions, which deduplication keeps; and where no rule
has a twin, sequences that unfold alike are the same (`Inv.values_eq_of_unfolds`), from the
innermost groups outwards.
-/

namespace GrammarInduction

namespace Grammar

/-- The sentences `ss` are what the start name `name` derives. -/
structure Generates (name : String) (ss : List (List String)) (g : Grammar) : Prop where
  inv : g.Inv
  start : g.start = name
  language : g.language = {ws | ws ∈ ss}

/-- Lines that spell the same words are one rule. -/
def Distinct (g : Grammar) : Prop :=
  ∀ r ∈ g.rules, ∀ q ∈ g.rules, r.lhs = g.start → q.lhs = g.start →
    ∀ ws, Spells g.rules r.rhs ws → Spells g.rules q.rhs ws → r = q

section
variable {name : String} {ss : List (List String)} {g : Grammar}

theorem generates_ofCorpus (text : String) {start : String} (h : marked start = false) :
    (ofCorpus text start).Generates start (Corpus.sentences text) := by
  have hl := loaded_ofCorpus text start
  exact ⟨inv_ofCorpus text h, hl.start, hl.language_eq⟩

theorem Generates.promote {target : List String} {g' : Grammar} {old new : List Rule}
    (h : g.Generates name ss) (hp : Promotes target g g' old new) : g'.Generates name ss :=
  ⟨h.inv.promote hp, hp.start.trans h.start, (hp.language_eq h.inv.fresh).trans h.language⟩

theorem Generates.merge {r t : Rule} (h : g.Generates name ss)
    (m : Mergeable g.start g.rules r t) :
    Generates name ss { g with rules := dissolve r.lhs t g.rules } :=
  ⟨h.inv.merge m, h.start, (h.inv.language_merge m).trans h.language⟩

/-- A grammar in the middle of a pass that began at the name number `first`. -/
structure InPass (name : String) (ss : List (List String)) (first : Nat) (g : Grammar) : Prop where
  generates : g.Generates name ss
  le : first ≤ g.supply.nextName
  copies : ∃ R, g.Copies first R

theorem InPass.promote {first : Nat} {target : List String} {g' : Grammar} {old new : List Rule}
    (h : g.InPass name ss first) (ht : ∀ v ∈ target, ∀ n, first ≤ n → inducedName n ≠ v)
    (hp : Promotes target g g' old new) : g'.InPass name ss first := by
  obtain ⟨R, hR⟩ := h.copies
  refine ⟨h.generates.promote hp, h.le.trans ?_, _, hR.promote h.generates.inv hp h.le ht⟩
  rw [hp.nextName]
  exact Nat.le_add_right _ _

/-! ## Twinless grammars -/

/-- Without twins, what unfolds alike has the same values. -/
theorem Inv.values_eq_of_unfolds (h : g.Inv) (htwin : ∀ r ∈ g.rules, ∀ q ∈ g.rules,
    (r.lhs = g.start ↔ q.lhs = g.start) → r.values = q.values → r = q) {xs : List Symbol}
    {f : Forest} (hxf : Unfolds g.rules xs f) (hx : Kinded xs) : ∀ {ys : List Symbol},
    Kinded ys → Unfolds g.rules ys f → xs.map Symbol.value = ys.map Symbol.value := by
  induction hxf with
  | nil =>
    rintro _ _ ⟨⟩
    rfl
  | terminal _ _ ih =>
    rintro _ hy hyf
    generalize hf : Forest.word _ _ = f at hyf
    cases hyf with
    | terminal _ hyf =>
      injection hf with hv hrest
      subst hrest
      rw [List.map_cons, List.map_cons, hv, ih hx.tail hy.tail hyf]
    | nil => cases hf
    | nonterminal => cases hf
  | @nonterminal s xs _ _ p ht hp hl _ _ ih₁ ih₂ =>
    rintro _ hy (_ | _ | @⟨y, ys, _, _, q, hty, hq, hql, hyf₁, hyf₂⟩)
    have hv := ih₁ (h.kinds p hp) (h.kinds q hq) hyf₁
    have hps : p.lhs ≠ g.start := hl ▸ h.ne_start hx.head ht
    have hqs : q.lhs ≠ g.start := hql ▸ h.ne_start hy.head hty
    have hpq := htwin p hp q hq (iff_of_false hps hqs) hv
    rw [List.map_cons, List.map_cons, ← hl, hpq, hql, ih₂ hx.tail hy.tail hyf₂]

/-- Every rule that deduplication leaves unfolds as a rule from before, of the same name. -/
theorem Inv.exists_unfolds_alike (h : g.Inv) {r' : Rule}
    (hr' : r' ∈ (mergeTwins g.start g.rules).2) : ∃ r ∈ g.rules, r.lhs = r'.lhs ∧
      ∀ f, Unfolds (mergeTwins g.start g.rules).2 r'.rhs f ↔ Unfolds g.rules r.rhs f := by
  have hkeep := @Engine.deduplicate_keeps
    (fun g' => g'.Inv ∧ ∀ r' ∈ g'.rules, ∃ r ∈ g.rules, r.lhs = r'.lhs ∧
      ∀ f, Unfolds g'.rules r'.rhs f ↔ Unfolds g.rules r.rhs f)
    (fun h => h.1) ?_ g ⟨h, fun r hr => ⟨r, hr, rfl, fun _ => Iff.rfl⟩⟩
  · exact hkeep.2 r' hr'
  · rintro g' r t ⟨hinv, hall⟩ m
    refine ⟨hinv.merge m, fun q' hq' => ?_⟩
    obtain ⟨q, hq, -, rfl⟩ := mem_dissolve.1 hq'
    obtain ⟨p, hp, hl, hf⟩ := hall q hq
    exact ⟨p, hp, hl, fun f => (hinv.unfolds_merge_iff m (hinv.kinds q hq)).trans (hf f)⟩

/-- After deduplication, copies of a line are one line. -/
theorem Copies.distinct {first : Nat} {R : String → String → Prop} (hc : g.Copies first R)
    (h : g.Inv) : Distinct { g with rules := (mergeTwins g.start g.rules).2 } := by
  intro r' hr' q' hq' hrs hqs ws hrw hqw
  obtain ⟨r, hr, hrl, hrf⟩ := h.exists_unfolds_alike hr'
  obtain ⟨q, hq, hql, hqf⟩ := h.exists_unfolds_alike hq'
  obtain ⟨f, hf, hfw⟩ := spells_iff.1 hrw
  obtain ⟨f', hf', hfw'⟩ := spells_iff.1 hqw
  have hmatch := hc.lines r hr q hq (hrl.trans hrs) (hql.trans hqs) ws
    (spells_iff.2 ⟨f, (hrf f).1 hf, hfw⟩) (spells_iff.2 ⟨f', (hqf f').1 hf', hfw'⟩)
  have hfq := (hqf f).2 (hc.unfolds h ((hrf f).1 hf) (h.kinds r hr) (h.kinds q hq)
    (h.defined q hq) hmatch)
  have hinv := Engine.deduplicate_keeps (P := Inv) (fun h => h) (fun h m => h.merge m) h
  have htwin : ∀ p ∈ (mergeTwins g.start g.rules).2, ∀ p' ∈ (mergeTwins g.start g.rules).2,
      (p.lhs = g.start ↔ p'.lhs = g.start) → p.values = p'.values → p = p' :=
    fun p hp p' hp' => eq_of_mem_mergeTwins h.ids h.separable hp hp'
  exact htwin r' hr' q' hq' (iff_of_true hrs hqs)
    (hinv.values_eq_of_unfolds htwin hf (hinv.kinds r' hr') (hinv.kinds q' hq') hfq)

end

end Grammar

/-! ## Iterations -/

namespace Engine

variable {e : Engine} {name : String} {ss : List (List String)}

theorem step_generates (h : e.grammar.Generates name ss) :
    ∃ changed e', e.step = .ok (changed, e') ∧ e'.grammar.Generates name ss :=
  step_keeps (fun h => h.inv) (fun h hp => h.promote hp) (fun h m => h.merge m) h

/-- A pass from lines that agree on their values where they spell the same words leaves one line for
each sentence. -/
theorem step_distinct (h : e.grammar.Generates name ss)
    (hlines : ∀ r ∈ e.grammar.rules, ∀ q ∈ e.grammar.rules, r.lhs = e.grammar.start →
      q.lhs = e.grammar.start → ∀ ws, Spells e.grammar.rules r.rhs ws →
      Spells e.grammar.rules q.rhs ws → r.values = q.values) :
    ∃ changed e', e.step = .ok (changed, e') ∧ e'.grammar.Generates name ss ∧
      e'.grammar.Distinct := by
  -- the targets of the pass are made of values from before it
  have htarget : ∀ c ∈ e.fired, ∀ v ∈ c.values, ∀ n, e.grammar.supply.nextName ≤ n →
      inducedName n ≠ v := by
    rintro c hc _ hv n hn rfl
    obtain ⟨r, hr, p, -, hinf, -⟩ := of_mem_fired hc
    exact h.inv.fresh.values r hr n hn (hinf.subset hv)
  obtain ⟨n, g, hall, hg⟩ := promoteAll_induct
    (P := Grammar.InPass name ss e.grammar.supply.nextName) (fun h => h.generates.inv.ids)
    (fun c hc _ _ _ _ hg hp => hg.promote (htarget c hc) hp)
    ⟨h, Nat.le_refl _, Eq, Grammar.Copies.initial h.inv hlines⟩
  obtain ⟨e', hs, he', -, -⟩ := step_eq hall
  obtain ⟨R, hR⟩ := hg.copies
  refine ⟨_, e', hs, ?_, ?_⟩
  · rw [he']
    exact deduplicate_keeps (fun h => h.inv) (fun h m => h.merge m) hg.generates
  · rw [he']
    exact hR.distinct hg.generates.inv

/-- Induction from a corpus keeps its language: the token lists of its lines that have tokens. -/
theorem language_of_iterate {text start : String}
    (he : e.grammar = Grammar.ofCorpus text start) (hs : marked start = false) (k : Nat) :
    ∃ e', e.iterate k = .ok e' ∧ e'.grammar.start = start ∧ e'.grammar.language =
      {ws | ws ≠ [] ∧ ∃ line ∈ text.toList.splitOn '\n', Corpus.tokens line = ws} := by
  obtain ⟨e', hk, h⟩ := iterate_induct
    (P := fun e => e.grammar.Generates start (Corpus.sentences text)) step_generates k
    (he ▸ Grammar.generates_ofCorpus text hs)
  refine ⟨e', hk, h.start, h.language.trans ?_⟩
  ext ws
  exact Corpus.mem_sentences

theorem language_of_iterate_pair :
    ∃ e', iterate 2
        { grammar := Grammar.ofCorpus "a b c\na b d" "S", patterns := [.pair] } = .ok e' ∧
      e'.grammar.start = "S" ∧ e'.grammar.language =
        {ws | ws ≠ [] ∧ ∃ line ∈ "a b c\na b d".toList.splitOn '\n', Corpus.tokens line = ws} :=
  language_of_iterate rfl (by decide) 2

/-- After an iteration, no two lines derive the same words, and every sentence has one line. -/
theorem lines_of_iterate {text start : String} (he : e.grammar = Grammar.ofCorpus text start)
    (hs : marked start = false) (k : Nat) :
    ∃ e', e.iterate (k + 1) = .ok e' ∧
      (e'.grammar.rules.Pairwise fun r q => r.lhs = start → q.lhs = start →
        ¬ ∃ ws, Spells e'.grammar.rules r.rhs ws ∧ Spells e'.grammar.rules q.rhs ws) ∧
      ∀ ws ∈ Corpus.sentences text,
        ∃! r, r ∈ e'.grammar.rules ∧ r.lhs = start ∧ Spells e'.grammar.rules r.rhs ws := by
  have hload := Grammar.loaded_ofCorpus text start
  rw [← he] at hload
  obtain ⟨changed, e₁, hstep, h₁⟩ := step_distinct (he ▸ Grammar.generates_ofCorpus text hs)
    fun r hr q hq _ _ ws hrw hqw =>
      ((hload.spells_iff hr).1 hrw).symm.trans ((hload.spells_iff hq).1 hqw)
  obtain ⟨e', hk, h, hd⟩ := iterate_induct
    (P := fun e => e.grammar.Generates start (Corpus.sentences text) ∧ e.grammar.Distinct)
    (fun ⟨h, hd⟩ => step_distinct h fun r hr q hq hrs hqs ws hrw hqw =>
      congrArg Rule.values (hd r hr q hq hrs hqs ws hrw hqw)) k h₁
  have hst := h.start
  subst hst
  refine ⟨e', (iterate_succ hstep k).trans hk, ?_, fun ws hws => ?_⟩
  · refine (List.Nodup.of_map _ h.inv.ids).imp_of_mem ?_
    rintro r q hr hq hne hrs hqs ⟨ws, hrw, hqw⟩
    exact hne (hd r hr q hq hrs hqs ws hrw hqw)
  · have hws : ws ∈ e'.grammar.language := by rw [h.language]; exact hws
    obtain ⟨r, hr, hrs, hrw⟩ := hws
    exact ⟨r, ⟨hr, hrs, hrw⟩, fun q ⟨hq, hqs, hqw⟩ => hd q hq r hr hqs hrs ws hqw hrw⟩

theorem lines_of_iterate_pair :
    ∃ e', iterate (0 + 1)
        { grammar := Grammar.ofCorpus "a b c\na b c" "S", patterns := [.pair] } = .ok e' ∧
      (e'.grammar.rules.Pairwise fun r q => r.lhs = "S" → q.lhs = "S" →
        ¬ ∃ ws, Spells e'.grammar.rules r.rhs ws ∧ Spells e'.grammar.rules q.rhs ws) ∧
      ∀ ws ∈ Corpus.sentences "a b c\na b c",
        ∃! r, r ∈ e'.grammar.rules ∧ r.lhs = "S" ∧ Spells e'.grammar.rules r.rhs ws :=
  lines_of_iterate rfl (by decide) 0

end Engine

end GrammarInduction
