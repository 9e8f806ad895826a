import GrammarInduction.Proofs.Derivation.Success
import GrammarInduction.Proofs.Induction.Pass
import GrammarInduction.Proofs.Induction.Termination
import GrammarInduction.Proofs.Number.Rounding

/-!
# Patterns of one item

A pattern of one item matches every symbol. Where such patterns fire at the first match, no
iteration is the last one (`Engine.step_of_singles`).

`Nested rules n xs`: a chain of `n` references begins in `xs`. A promotion breaks no chain, and
makes one longer that goes through a hit (`Promotes.nested`, `nested_hit`); a single merge only
renames it (`Inv.nested_merge`). As every value of a line is promoted in the course of a pass, and
any other promotion that takes it away puts a reference there too, a pass makes the longest chain
that begins in a line longer by one (`Deepening.promote`). So the structure of the grammar cannot be
what it was, as the chains of an acyclic grammar are shorter than its number of rules
(`Nested.length_lt`).
-/

namespace GrammarInduction

/-- A chain of `n` references begins in `xs`. -/
def Nested (rules : List Rule) : Nat → List Symbol → Prop
  | 0, _ => True
  | n + 1, xs => ∃ s ∈ xs, s.terminal = false ∧ ∃ r ∈ rules, r.lhs = s.value ∧ Nested rules n r.rhs

namespace Nested

variable {rules rules' : List Rule}

theorem pred : ∀ {n : Nat} {xs : List Symbol}, Nested rules (n + 1) xs → Nested rules n xs
  | 0, _, _ => trivial
  | _ + 1, _, ⟨s, hs, ht, r, hr, hl, h⟩ => ⟨s, hs, ht, r, hr, hl, h.pred⟩

theorem of_ref {n : Nat} {s : Symbol} {r : Rule} (ht : s.terminal = false) (hr : r ∈ rules)
    (hl : r.lhs = s.value) (h : Nested rules n r.rhs) : Nested rules (n + 1) [s] :=
  ⟨s, List.mem_singleton_self s, ht, r, hr, hl, h⟩

theorem mono_symbols {n : Nat} {xs ys : List Symbol} (h : Nested rules n xs)
    (hsub : ∀ s ∈ xs, s ∈ ys) : Nested rules n ys := by
  cases n with
  | zero => trivial
  | succ n =>
    obtain ⟨s, hs, hr⟩ := h
    exact ⟨s, hsub s hs, hr⟩

/-- The chain begins at one of the symbols. -/
theorem exists_mem {n : Nat} {xs : List Symbol} (h : Nested rules n xs) (hne : xs ≠ []) :
    ∃ s ∈ xs, Nested rules n [s] := by
  cases n with
  | zero =>
    obtain ⟨s, hs⟩ := List.exists_mem_of_ne_nil xs hne
    exact ⟨s, hs, trivial⟩
  | succ n =>
    obtain ⟨s, hs, ht, r, hr, hl, h⟩ := h
    exact ⟨s, hs, of_ref ht hr hl h⟩

theorem congr {n : Nat} {xs ys : List Symbol} (h : Nested rules n xs)
    (hs : xs.map Symbol.shape = ys.map Symbol.shape) : Nested rules n ys := by
  cases n with
  | zero => trivial
  | succ n =>
    obtain ⟨s, hmem, ht, r, hr, hl, h⟩ := h
    obtain ⟨t, htmem, htv, htt⟩ := exists_shape hs hmem
    exact ⟨t, htmem, htt.trans ht, r, hr, hl.trans htv.symm, h⟩

/-- Chains are kept by rules that include the names and shapes of the others. -/
theorem mono (hsub : ∀ r ∈ rules, ∃ q ∈ rules', q.lhs = r.lhs ∧ q.shapes = r.shapes) :
    ∀ {n : Nat} {xs : List Symbol}, Nested rules n xs → Nested rules' n xs
  | 0, _, _ => trivial
  | _ + 1, _, ⟨s, hs, ht, r, hr, hl, h⟩ => by
    obtain ⟨q, hq, hql, hqs⟩ := hsub r hr
    have hn := mono hsub h
    exact ⟨s, hs, ht, q, hq, hql.trans hl, hn.congr hqs.symm⟩

/-- A chain from below distinct names has less references than there are other rules. -/
theorem length_lt {g : Grammar} (hw : g.WellFormed) : ∀ {n : Nat} {path : List String} {r : Rule},
    r ∈ g.rules → g.Above path r.lhs → Nested g.rules n r.rhs → path.length + n < g.rules.length
  | 0, _, r, hr, ha, _ => ha.length_lt hw ⟨r, hr, rfl⟩
  | n + 1, path, r, hr, ha, ⟨s, hs, ht, q, hq, hl, h⟩ => by
    have hbelow := ha.cons hw ⟨r, hr, rfl⟩ ⟨r, hr, rfl, s, hs, ht, hl.symm⟩
    have hlt := length_lt hw hq hbelow h
    rw [List.length_cons] at hlt
    omega

end Nested

/-! ## Promotions -/

section
variable {rules new : List Rule} {n : Nat}

/-- The reference for a hit prolongs the chains of the hit. -/
theorem nested_hit {body : List Symbol} {y : Symbol} (hy : Segment.Becomes new (.hit body) y)
    (hsub : ∀ q ∈ new, q ∈ rules) (h : Nested rules n body) : Nested rules (n + 1) [y] := by
  obtain ⟨ht, q, hq, hl, hs⟩ := hy
  exact .of_ref ht (hsub q hq) hl (h.congr hs.symm)

theorem nested_becomes {seg : Segment} {y : Symbol} (hy : seg.Becomes new y)
    (hsub : ∀ q ∈ new, q ∈ rules) (h : Nested rules n seg.symbols) : Nested rules n [y] := by
  cases seg with
  | kept x =>
    obtain rfl : y = x := hy
    exact h
  | hit body => exact (nested_hit hy hsub h).pred

theorem Rule.Becomes.nested {start : String} {target : List String} {r r' : Rule}
    (hb : r.Becomes start target new r') (hsub : ∀ q ∈ new, q ∈ rules)
    (h : Nested rules n r.rhs) : Nested rules n r'.rhs := by
  cases n with
  | zero => trivial
  | succ n =>
    obtain ⟨s, hs, hchain⟩ := h
    rw [← @flatMap_segments start target r, List.mem_flatMap] at hs
    obtain ⟨seg, hseg, hs⟩ := hs
    obtain ⟨y, hy, hsy⟩ := exists_right_of_forall₂ hb.rhs hseg
    have hn : Nested rules (n + 1) seg.symbols := ⟨s, hs, hchain⟩
    refine (nested_becomes hsy hsub hn).mono_symbols fun z hz => ?_
    rwa [List.mem_singleton.1 hz]

end

namespace Promotes

variable {target : List String} {g g' : Grammar} {old new : List Rule}

theorem mem_of_new (h : Promotes target g g' old new) : ∀ q ∈ new, q ∈ g'.rules :=
  fun _ hq => h.mem_rules.2 (.inr hq)

/-- A promotion breaks no chain. -/
theorem nested (h : Promotes target g g' old new) : ∀ {n : Nat} {xs : List Symbol},
    Nested g.rules n xs → Nested g'.rules n xs
  | 0, _, _ => trivial
  | _ + 1, _, ⟨s, hs, ht, r, hr, hl, hn⟩ => by
    obtain ⟨r', hr', hb⟩ := h.exists_old hr
    have hn := hb.nested h.mem_of_new (h.nested hn)
    exact ⟨s, hs, ht, r', h.mem_rules.2 (.inl hr'), hb.lhs.trans hl, hn⟩

end Promotes

/-! ## Merges -/

section
variable {g : Grammar} (h : g.Inv) {r t : Rule} (m : Mergeable g.start g.rules r t)
include h m

/-- For every rule there is one after a single merge, of the renamed name and shapes. -/
theorem Grammar.Inv.exists_merged {q : Rule} (hq : q ∈ g.rules) :
    ∃ p ∈ dissolve r.lhs t g.rules, p.lhs = renamed t.lhs r.lhs q.lhs ∧
      (q.rhs.map (Symbol.renamed t.lhs r.lhs)).map Symbol.shape = p.shapes := by
  obtain ⟨p, hp, hi, hl, hs⟩ := h.unequivocal.exists_dissolve h.ids m (h.agreed_merge m) hq
  exact ⟨_, mem_dissolve.2 ⟨p, hp, hi, rfl⟩, hl, shapes_renamed hs.symm⟩

/-- A single merge renames the names of a chain. -/
theorem Grammar.Inv.nested_merge : ∀ {n : Nat} {xs : List Symbol}, Nested g.rules n xs →
    Nested (dissolve r.lhs t g.rules) n (xs.map (Symbol.renamed t.lhs r.lhs))
  | 0, _, _ => trivial
  | n + 1, xs, ⟨s, hs, ht, q, hq, hl, hn⟩ => by
    obtain ⟨p, hp, hpl, hps⟩ := h.exists_merged m hq
    have hn := Inv.nested_merge hn
    refine ⟨s.renamed t.lhs r.lhs, List.mem_map_of_mem hs, ?_, p, hp, ?_, hn.congr hps⟩
    · rw [Symbol.renamed_terminal, ht]
    · rw [Symbol.renamed_value, hpl, hl]

end

/-! ## Lines -/

namespace Grammar

/-- A chain of `n` references begins in a line. -/
def Deep (n : Nat) (g : Grammar) : Prop := ∃ r ∈ g.rules, r.lhs = g.start ∧ Nested g.rules n r.rhs

theorem Deep.lt_length {g : Grammar} {n : Nat} (hw : g.WellFormed) (h : g.Deep n) :
    n < g.rules.length := by
  obtain ⟨r, hr, -, hn⟩ := h
  have hlt := Nested.length_lt hw hr ⟨.nil, nofun, nofun⟩ hn
  rwa [List.length_nil, Nat.zero_add] at hlt

theorem Deep.promote {target : List String} {g g' : Grammar} {old new : List Rule} {n : Nat}
    (h : g.Deep n) (hp : Promotes target g g' old new) : g'.Deep n := by
  obtain ⟨r, hr, hl, hn⟩ := h
  obtain ⟨r', hr', hb⟩ := hp.exists_old hr
  refine ⟨r', hp.mem_rules.2 (.inl hr'), ?_, hb.nested hp.mem_of_new (hp.nested hn)⟩
  rw [hb.lhs, hl, hp.start]

theorem Deep.merge {g : Grammar} {n : Nat} {r t : Rule} (h : g.Deep n) (hinv : g.Inv)
    (m : Mergeable g.start g.rules r t) :
    Deep n { g with rules := dissolve r.lhs t g.rules } := by
  obtain ⟨q, hq, hl, hn⟩ := h
  obtain ⟨p, hp, hpl, hps⟩ := hinv.exists_merged m hq
  refine ⟨p, hp, ?_, (hinv.nested_merge m hn).congr hps⟩
  rw [hpl, hl]
  by_cases hst : g.start = t.lhs
  · rw [← hst, renamed_old]
    exact m.kind.2 hst.symm
  · exact renamed_of_ne _ hst

/-- Grammars of one structure have the same chains. -/
theorem Deep.of_sameStructure {g g' : Grammar} {n : Nat} (h : g.Deep n) (hg : g.Inv) (hg' : g'.Inv)
    (hstart : g.start = g'.start) (hs : g.sameStructure g' = true) : g'.Deep n := by
  rw [sameStructure_iff_perm] at hs
  have hsub : ∀ r ∈ g.rules, ∃ q ∈ g'.rules, q.lhs = r.lhs ∧ q.shapes = r.shapes := by
    intro r hr
    have hm := hs.subset (List.mem_map_of_mem (f := Rule.shape) hr)
    obtain ⟨q, hq, he⟩ := List.mem_map.1 hm
    rw [Rule.shape, Rule.shape, Prod.mk.injEq] at he
    exact ⟨q, hq, he.1, (hg'.kinds q hq).shapes_congr (hg.kinds r hr) he.2⟩
  obtain ⟨r, hr, hl, hn⟩ := h
  obtain ⟨q, hq, hql, hqs⟩ := hsub r hr
  have hn := hn.mono hsub
  exact ⟨q, hq, hql.trans (hl.trans hstart), hn.congr hqs.symm⟩

/-! ## A pass -/

/-- In the middle of a pass that takes chains of `n` references one further: a line has such a
chain already, or the first value `v` of a chain of `n` has still to be promoted. -/
structure Deepening (n : Nat) (v : String) (done : List Candidate) (g : Grammar) : Prop where
  inv : g.Inv
  deep : g.Deep (n + 1) ∨ [v] ∉ done.map Candidate.values ∧
    ∃ r ∈ g.rules, r.lhs = g.start ∧ ∃ s ∈ r.rhs, s.value = v ∧ Nested g.rules n [s]

end Grammar

/-- A single value is cut out wherever it stands. -/
theorem cut_singleton (v : String) : ∀ rhs : List Symbol,
    cut [v] rhs = rhs.map fun s => if s.value = v then .hit [s] else .kept s
  | [] => rfl
  | s :: rest => by
    rw [cut_cons, List.map_cons, ← cut_singleton v rest]
    by_cases hs : s.value = v <;> simp [hs]

theorem ne_of_kept_mem_cut {v : String} {x : Symbol} {rhs : List Symbol}
    (h : .kept x ∈ cut [v] rhs) : x.value ≠ v := by
  rw [cut_singleton, List.mem_map] at h
  obtain ⟨s, -, hs⟩ := h
  split at hs
  · cases hs
  · rename_i hne
    rwa [← Segment.kept.inj hs]

namespace Grammar

theorem Deepening.promote {n : Nat} {v : String} {done : List Candidate} {g g' : Grammar}
    {c : Candidate} {old new : List Rule} (h : g.Deepening n v done)
    (hp : Promotes c.values g g' old new) : g'.Deepening n v (done ++ [c]) := by
  refine ⟨h.inv.promote hp, ?_⟩
  rcases h.deep with hdeep | ⟨hdone, r, hr, hl, s, hs, hv, hn⟩
  · exact .inl (hdeep.promote hp)
  · obtain ⟨r', hr', hb⟩ := hp.exists_old hr
    have hr'mem := hp.mem_rules.2 (.inl hr')
    have hl' : r'.lhs = g'.start := by rw [hb.lhs, hl, hp.start]
    have hsmem := hs
    rw [← @flatMap_segments g.start c.values r, List.mem_flatMap] at hsmem
    obtain ⟨seg, hseg, hsseg⟩ := hsmem
    obtain ⟨y, hy, hsy⟩ := exists_right_of_forall₂ hb.rhs hseg
    cases seg with
    | kept x =>
      obtain rfl : s = x := List.mem_singleton.1 hsseg
      obtain rfl : y = s := hsy
      refine .inr ⟨?_, r', hr'mem, hl', y, hy, hv, hp.nested hn⟩
      rw [List.map_append, List.mem_append, not_or, List.map_singleton, List.mem_singleton]
      refine ⟨hdone, fun hc => ?_⟩
      rw [segments_eq_cut (.inl hl), ← hc] at hseg
      exact ne_of_kept_mem_cut hseg hv
    | hit body =>
      have hbody : Nested g'.rules n body := (hp.nested hn).mono_symbols fun z hz => by
        rwa [List.mem_singleton.1 hz]
      have hyn := nested_hit hsy hp.mem_of_new hbody
      refine .inl ⟨r', hr'mem, hl', hyn.mono_symbols fun z hz => ?_⟩
      rwa [List.mem_singleton.1 hz]

end Grammar

/-! ## Iterations -/

namespace Engine

variable {e : Engine}

/-- Patterns of one item, of which there are some, fire at the first match. -/
structure Singles (patterns : List Pattern) : Prop where
  some : ∃ p ∈ patterns, p.items.length = 1
  fire : ∀ p ∈ patterns, p.items.length = 1 → p.fire.atMost 1 = true

/-- A pattern of one item matches any value. -/
theorem match?_single {p : Pattern} (h : p.items.length = 1) (v : String) (vs : List String) :
    ∃ m, p.match? (v :: vs) = some m ∧ m.values = [v] := by
  obtain ⟨item, hitem⟩ := List.length_eq_one_iff.1 h
  cases item with
  | var name =>
    refine ⟨⟨[v], []⟩, ?_, rfl⟩
    simp [Pattern.match?, hitem, Pattern.wildcardsFrom, Bindings.unify, Bindings.value?,
      Bindings.holder?]
  | wildcard =>
    refine ⟨⟨[v], [0]⟩, ?_, rfl⟩
    simp [Pattern.match?, hitem, Pattern.wildcardsFrom]

/-- Every value fires on its own. -/
theorem Singles.exists_fired (hp : Singles e.patterns) {r : Rule} (hr : r ∈ e.grammar.rules)
    {v : String} (hv : v ∈ r.values) : [v] ∈ e.fired.map Candidate.values := by
  obtain ⟨p, hpm, hlen⟩ := hp.some
  obtain ⟨i, hi⟩ := List.mem_iff_getElem?.1 hpm
  obtain ⟨j, hj, hvj⟩ := List.mem_iff_getElem.1 hv
  have hdrop : r.values.drop j = v :: r.values.drop (j + 1) := by
    rw [List.drop_eq_getElem_cons hj, hvj]
  obtain ⟨m, hm, hmv⟩ := match?_single hlen v (r.values.drop (j + 1))
  have hcollect : _ ∈ e.collect := mem_collect.2
    ⟨r, hr, p, i, hi, j, by simpa [Rule.values] using hj, m, by rw [hdrop, hm], rfl⟩
  have htally := Chart.tallied_ofOccurrences e.patterns e.collect
  obtain ⟨c, hc, hco⟩ := htally.counted _ hcollect p hi
  have hcv : c.values = [v] := (Candidate.covers_iff.1 hco).1.trans hmv
  refine List.mem_map.2 ⟨c, ?_, hcv⟩
  rw [fired, Chart.fireRanking, List.mem_mergeSort, List.mem_filter]
  refine ⟨hc, ?_⟩
  obtain ⟨hcount, o, ho, q, hq, hoc, hfire, -⟩ := htally.counts c hc
  obtain ⟨-, -, q', hq', -, hqlen, -⟩ := of_mem_collect ho
  rw [hq, Option.some.injEq] at hq'
  subst hq'
  rw [← (Candidate.covers_iff.1 hoc).1, hcv] at hqlen
  rw [Candidate.fires, hfire]
  exact Binary64.atMost_mono (hp.fire q (List.mem_of_getElem? hq) hqlen.symm) hcount

/-- An iteration makes the longest chains longer. -/
theorem step_deep (hp : Singles e.patterns) (h : e.grammar.Inv) {n : Nat}
    (hd : e.grammar.Deep n) :
    ∃ changed e', e.step = .ok (changed, e') ∧ e'.patterns = e.patterns ∧ e'.grammar.Inv ∧
      e'.grammar.start = e.grammar.start ∧ e'.grammar.Deep (n + 1) ∧
      changed = !e'.grammar.sameStructure e.grammar := by
  obtain ⟨r, hr, hl, hn⟩ := hd
  obtain ⟨s, hs, hsn⟩ := hn.exists_mem (h.rhs_ne r hr)
  have hfired : [s.value] ∈ e.fired.map Candidate.values :=
    hp.exists_fired hr (List.mem_map_of_mem hs)
  have hpromote : ∀ c ∈ e.fired, ∀ {done : List Candidate} {g : Grammar},
      g.Deepening n s.value done ∧ g.start = e.grammar.start →
        ∃ k g', g.promote c.values = .ok (k, g') ∧
          g'.Deepening n s.value (done ++ [c]) ∧ g'.start = e.grammar.start := by
    intro c _ done g ⟨hg, hstart⟩
    obtain ⟨g', old, new, hpr, hspec⟩ := promote_spec hg.inv.ids c.values
    exact ⟨_, g', hpr, hg.promote hspec, hspec.start.trans hstart⟩
  obtain ⟨k, g, hall, hg, hstart⟩ := @promoteAll_chain
    (fun done g => g.Deepening n s.value done ∧ g.start = e.grammar.start) e.fired [] e.grammar
    hpromote ⟨⟨h, .inr ⟨by simp, r, hr, hl, s, hs, rfl, hsn⟩⟩, rfl⟩
  have hdeep := hg.deep.resolve_right fun hdone => hdone.1 hfired
  obtain ⟨e', hstep, he', hpat, -⟩ := step_eq hall
  have hkeep := deduplicate_keeps (P := fun g => g.Inv ∧ g.Deep (n + 1)) (fun h => h.1)
    (fun h m => ⟨h.1.merge m, h.2.merge h.1 m⟩) ⟨hg.inv, hdeep⟩
  rw [← he'] at hkeep
  refine ⟨_, e', hstep, hpat, hkeep.1, ?_, hkeep.2, ?_⟩
  · rw [he']
    exact hstart
  · rw [he']
    rfl

/-- So it changes the structure of the grammar. -/
theorem step_changes (hp : Singles e.patterns) (h : e.grammar.Inv) (hd : e.grammar.Deep 0) :
    ∃ e', e.step = .ok (true, e') ∧ e'.patterns = e.patterns ∧ e'.grammar.Inv ∧
      e'.grammar.Deep 0 := by
  obtain ⟨changed, e', hstep, hpat, hinv, hstart, hdeep, hchanged⟩ := step_deep hp h hd
  have hchanged : changed = true := by
    rw [hchanged, Bool.not_eq_true', Bool.eq_false_iff]
    intro hsame
    -- the same structure would have chains of any length
    have hall : ∀ n, e.grammar.Deep n := by
      intro n
      induction n with
      | zero => exact hd
      | succ n ih =>
        obtain ⟨_, e'', hstep', -, -, -, hdeep', -⟩ := step_deep hp h ih
        rw [hstep, Except.ok.injEq, Prod.mk.injEq] at hstep'
        obtain ⟨-, rfl⟩ := hstep'
        exact hdeep'.of_sameStructure hinv h hstart hsame
    exact Nat.lt_irrefl _ ((hall e.grammar.rules.length).lt_length h.wellFormed)
  subst hchanged
  exact ⟨e', hstep, hpat, hinv, hdeep.imp fun r ⟨hr, hl, hn⟩ => ⟨hr, hl, trivial⟩⟩

/-- A run without a cap spends any budget. -/
theorem runWithin_of_singles : ∀ (budget : Nat) {e : Engine}, Singles e.patterns →
    e.grammar.Inv → e.grammar.Deep 0 → e.config.maxIterations = 0 →
    ∃ e', runWithin budget e = .ok (none, e')
  | 0, e, _, _, _, _ => ⟨e, rfl⟩
  | budget + 1, e, hp, h, hd, hcap => by
    obtain ⟨e', hstep, hpat, h', hd'⟩ := step_changes hp h hd
    have hcap' : e'.config.maxIterations = 0 := by rw [config_of_step hstep, hcap]
    obtain ⟨e'', hrun⟩ := runWithin_of_singles budget (hpat ▸ hp) h' hd' hcap'
    exact ⟨e'', (runWithin_succ hstep (atCap_of_no_cap hcap') budget).trans hrun⟩

/-- From a corpus with a token, where patterns of one item fire at the first match and there are
some, every iteration changes the grammar, whatever the other patterns are, and a run without a cap
has no end. -/
theorem step_of_singles {text start : String} (he : e.grammar = Grammar.ofCorpus text start)
    (hs : marked start = false) {line : List Char} (hline : line ∈ text.toList.splitOn '\n')
    (htokens : Corpus.tokens line ≠ []) {p : Pattern} (hp : p ∈ e.patterns)
    (hlen : p.items.length = 1)
    (hfire : ∀ q ∈ e.patterns, q.items.length = 1 → q.fire.atMost 1 = true) :
    (∀ k, ∃ e₁ e₂, e.iterate k = .ok e₁ ∧ e₁.step = .ok (true, e₂)) ∧
      (e.config.maxIterations = 0 → ∀ budget, ∃ e', runWithin budget e = .ok (none, e')) := by
  have hsingles : Singles e.patterns := ⟨⟨p, hp, hlen⟩, hfire⟩
  have hinv : e.grammar.Inv := he ▸ Grammar.inv_ofCorpus text hs
  have hload := Grammar.loaded_ofCorpus text start
  rw [← he] at hload
  have hdeep : e.grammar.Deep 0 := by
    obtain ⟨r, hr, -⟩ := hload.exists_rule (Corpus.mem_sentences.2 ⟨htokens, line, hline, rfl⟩)
    exact ⟨r, hr, (hload.of_mem hr).1, trivial⟩
  refine ⟨fun k => ?_, fun hcap budget => runWithin_of_singles budget hsingles hinv hdeep hcap⟩
  obtain ⟨e₁, hk, hp₁, h₁, hd₁⟩ := iterate_induct
    (P := fun e => Singles e.patterns ∧ e.grammar.Inv ∧ e.grammar.Deep 0)
    (fun ⟨hp, h, hd⟩ => by
      obtain ⟨e', hstep, hpat, h', hd'⟩ := step_changes hp h hd
      exact ⟨true, e', hstep, hpat ▸ hp, h', hd'⟩) k ⟨hsingles, hinv, hdeep⟩
  obtain ⟨e₂, hstep, -⟩ := step_changes hp₁ h₁ hd₁
  exact ⟨e₁, e₂, hk, hstep⟩

/-- A pattern of two items stands first and fires first. -/
theorem step_of_singles_pair :
    ['a', ' ', 'b'] ∈ "a b\na b".toList.splitOn '\n' ∧ Corpus.tokens ['a', ' ', 'b'] ≠ [] ∧
      always [.var "X"] ∈ [Pattern.pair, always [.var "X"]] ∧
      (∀ q ∈ [Pattern.pair, always [.var "X"]], q.items.length = 1 → q.fire.atMost 1 = true) ∧
      let e : Engine :=
        { grammar := Grammar.ofCorpus "a b\na b" "S", patterns := [.pair, always [.var "X"]] }
      (∀ k, ∃ e₁ e₂, e.iterate k = .ok e₁ ∧ e₁.step = .ok (true, e₂)) ∧
        ∀ budget, ∃ e', runWithin budget e = .ok (none, e') := by
  have hline : ['a', ' ', 'b'] ∈ "a b\na b".toList.splitOn '\n' := by decide
  have htokens : Corpus.tokens ['a', ' ', 'b'] ≠ [] := by decide
  have hp : always [.var "X"] ∈ [Pattern.pair, always [.var "X"]] := by decide
  have hfire : ∀ q ∈ [Pattern.pair, always [.var "X"]], q.items.length = 1 →
      q.fire.atMost 1 = true := by decide +kernel
  obtain ⟨hsteps, hrun⟩ := step_of_singles
    (e := { grammar := _, patterns := [.pair, always [.var "X"]] }) rfl
    (show marked "S" = false by decide) hline htokens hp rfl hfire
  exact ⟨hline, htokens, hp, hfire, hsteps, hrun rfl⟩

end Engine

end GrammarInduction
