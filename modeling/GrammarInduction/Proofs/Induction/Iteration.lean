import GrammarInduction.Induction.Engine
import GrammarInduction.Proofs.Chart.Aggregation
import GrammarInduction.Proofs.Induction.Promotion
import GrammarInduction.Proofs.Pattern.Matching

/-!
# Iterating

`Engine.iterate k` takes `k` iterations in a row, and `Engine.trace k` reports their results too. An
iteration promotes the candidates that fire, whose values stand side by side in a rule and are as
many as some pattern has items (`Engine.of_mem_fired`), one after the other, and then deduplicates
(`Engine.step_eq`; `Engine.step_eq_ok` says all that it does). A property
is kept by all promotions of an iteration if it is kept by each (`promoteAll_induct`), and by all
iterations if it is kept by each (`Engine.iterate_induct`). What is known of a grammar may also grow
with the candidates that have been promoted (`promoteAll_chain`).
-/

namespace GrammarInduction

/-! ## Where candidates come from -/

/-- A match takes as many of the first values as the pattern has items, of which there are some. -/
theorem Pattern.match?_values {p : Pattern} {values : List String} {m : PatternMatch}
    (h : p.match? values = some m) :
    m.values <+: values ∧ m.values.length = p.items.length ∧ m.values ≠ [] := by
  have hne : p.items ≠ [] := by
    intro hitems
    rw [match?, if_pos hitems] at h
    cases h
  obtain ⟨hfits, rfl⟩ := (match?_eq_some_iff hne).1 h
  have hlen := List.length_take_of_le hfits.length
  refine ⟨List.take_prefix .., hlen, ?_⟩
  rw [← List.length_pos_iff, hlen]
  exact List.length_pos_iff.2 hne

/-- A result of which something has been computed. -/
theorem exists_ok_of_toOption_map {ε α β : Type} {x : Except ε α} {f : α → β} {b : β}
    (h : x.toOption.map f = some b) : ∃ a, x = .ok a ∧ f a = b := by
  cases x with
  | error e => cases h
  | ok a => exact ⟨a, rfl, Option.some.inj h⟩

/-- Two different values in a row, promoted where they stand twice. -/
def Pattern.pair : Pattern where
  items := [.var "X", .var "Y"]
  fire := .signed false (Binary64.nearest 2 1)
  wild := .signed false (Binary64.nearest 4 1)

theorem Engine.mem_collect {e : Engine} {o : Occurrence} : o ∈ e.collect ↔
    ∃ r ∈ e.grammar.rules, ∃ p i, e.patterns[i]? = some p ∧ ∃ j < r.rhs.length, ∃ m,
      p.match? (r.values.drop j) = some m ∧
        o = ⟨m.values, p.source, i, ⟨r.id, j, j + m.values.length - 1⟩, m.wildcards⟩ := by
  simp [collect, Pattern.occurrencesIn, List.mem_zipIdx_iff_getElem?, eq_comm (b := o)]

/-- An occurrence has as many values as its pattern has items, side by side in a rule. -/
theorem Engine.of_mem_collect {e : Engine} {o : Occurrence} (h : o ∈ e.collect) :
    ∃ r ∈ e.grammar.rules, ∃ p, e.patterns[o.patternIndex]? = some p ∧
      o.values <:+: r.values ∧ o.values.length = p.items.length ∧ o.values ≠ [] := by
  obtain ⟨r, hr, p, i, hp, j, -, m, hm, rfl⟩ := mem_collect.1 h
  obtain ⟨hpre, hlen, hne⟩ := Pattern.match?_values hm
  exact ⟨r, hr, p, hp, hpre.isInfix.trans (List.drop_suffix j r.values).isInfix, hlen, hne⟩

/-- A candidate has the values of an occurrence. -/
theorem of_mem_ofOccurrences {patterns : List Pattern} {os : List Occurrence} {c : Candidate}
    (h : c ∈ (Chart.ofOccurrences patterns os).candidates) : ∃ o ∈ os, o.values = c.values := by
  obtain ⟨-, o, ho, -, -, hco, -⟩ := (Chart.tallied_ofOccurrences patterns os).counts c h
  exact ⟨o, ho, (Candidate.covers_iff.1 hco).1.symm⟩

namespace Engine

/-- The candidates that the next iteration promotes, in order. -/
def fired (e : Engine) : List Candidate :=
  (Chart.ofOccurrences e.patterns e.collect).fireRanking

theorem of_mem_fired {e : Engine} {c : Candidate} (h : c ∈ e.fired) :
    ∃ r ∈ e.grammar.rules, ∃ p ∈ e.patterns,
      c.values <:+: r.values ∧ c.values.length = p.items.length ∧ c.values ≠ [] := by
  rw [fired, Chart.fireRanking, List.mem_mergeSort, List.mem_filter] at h
  obtain ⟨o, ho, hv⟩ := of_mem_ofOccurrences h.1
  obtain ⟨r, hr, p, hp, hval⟩ := of_mem_collect ho
  rw [hv] at hval
  exact ⟨r, hr, p, List.mem_of_getElem? hp, hval⟩

/-- Candidates that are discovered in the order of their rank fire in that order. -/
theorem fired_of_pairwise {e : Engine}
    (h : ((Chart.ofOccurrences e.patterns e.collect).candidates.filter Candidate.fires).Pairwise
      fun c d => c.rankedBefore d) :
    e.fired = (Chart.ofOccurrences e.patterns e.collect).candidates.filter Candidate.fires :=
  List.mergeSort_of_pairwise h

/-! ## One iteration -/

theorem promoteAll_cons {c : Candidate} {cs : List Candidate} {g g₁ g' : Grammar} {k n : Nat}
    (h : g.promote c.values = .ok (k, g₁)) (hs : promoteAll g₁ cs = .ok (n, g')) :
    promoteAll g (c :: cs) = .ok (k + n, g') := by
  simp only [promoteAll, h, hs, bind, Except.bind, pure, Except.pure]

/-- Promotions succeed one after the other; what is known after some of them may speak of their
candidates. -/
theorem promoteAll_chain {P : List Candidate → Grammar → Prop} :
    ∀ {cs done : List Candidate} {g : Grammar}, (∀ c ∈ cs, ∀ {done g}, P done g →
      ∃ n g', g.promote c.values = .ok (n, g') ∧ P (done ++ [c]) g') → P done g →
    ∃ n g', promoteAll g cs = .ok (n, g') ∧ P (done ++ cs) g'
  | [], _, g, _, h => ⟨0, g, rfl, by rwa [List.append_nil]⟩
  | c :: cs, _, _, hstep, h => by
    obtain ⟨k, g₁, hp, h₁⟩ := hstep c List.mem_cons_self h
    obtain ⟨n, g', hps, h'⟩ := promoteAll_chain (fun d hd => hstep d (.tail _ hd)) h₁
    refine ⟨k + n, g', promoteAll_cons hp hps, ?_⟩
    rwa [List.append_assoc] at h'

/-- Promotions succeed one after the other and keep what each of them keeps. -/
theorem promoteAll_induct {P : Grammar → Prop} (hid : ∀ {g}, P g → (g.rules.map Rule.id).Nodup)
    {cs : List Candidate} {g : Grammar}
    (hstep : ∀ c ∈ cs, ∀ {g g' old new}, P g → Promotes c.values g g' old new → P g') (h : P g) :
    ∃ n g', promoteAll g cs = .ok (n, g') ∧ P g' := by
  refine @promoteAll_chain (fun _ => P) cs [] g (fun c hc _ g hg => ?_) h
  obtain ⟨g', old, new, hp, hpr⟩ := promote_spec (hid hg) c.values
  exact ⟨new.length, g', hp, hstep c hc hg hpr⟩

/-- An iteration whose promotions lead to `g` counts what it did and deduplicates `g`. -/
theorem step_eq_ok {e : Engine} {n : Nat} {g : Grammar}
    (h : promoteAll e.grammar e.fired = .ok (n, g)) :
    e.step = .ok (!g.deduplicate.2.sameStructure e.grammar,
      { e with
        grammar := g.deduplicate.2
        records := e.collect
        stats :=
          { iterations := e.stats.iterations + 1
            records := e.stats.records + e.collect.length
            fired := e.stats.fired + e.fired.length
            induced := e.stats.induced + n
            merged := e.stats.merged + g.deduplicate.1 } }) := by
  unfold fired at h
  simp only [step, h, bind, Except.bind, pure, Except.pure]
  rfl

/-- An iteration whose promotions lead to `g` leads to `g` without twins. -/
theorem step_eq {e : Engine} {n : Nat} {g : Grammar}
    (h : promoteAll e.grammar e.fired = .ok (n, g)) :
    ∃ e', e.step = .ok (!g.deduplicate.2.sameStructure e.grammar, e') ∧
      e'.grammar = { g with rules := (mergeTwins g.start g.rules).2 } ∧
      e'.patterns = e.patterns ∧ e'.config = e.config :=
  ⟨_, step_eq_ok h, rfl, rfl, rfl⟩

/-! ## Many iterations -/

/-- The engine after `k` iterations. -/
def iterate : (k : Nat) → Engine → Except GrammarError Engine
  | 0, e => .ok e
  | k + 1, e => do
    let (_, e) ← e.step
    iterate k e

theorem iterate_succ {e e' : Engine} {changed : Bool} (h : e.step = .ok (changed, e')) (k : Nat) :
    e.iterate (k + 1) = e'.iterate k := by
  simp only [iterate, h, bind, Except.bind]

/-- Iterations succeed one after the other and keep what each of them keeps. -/
theorem iterate_induct {P : Engine → Prop}
    (hstep : ∀ {e}, P e → ∃ changed e', e.step = .ok (changed, e') ∧ P e') :
    ∀ (k : Nat) {e : Engine}, P e → ∃ e', e.iterate k = .ok e' ∧ P e'
  | 0, e, h => ⟨e, rfl, h⟩
  | k + 1, e, h => by
    obtain ⟨changed, e₁, hs, h₁⟩ := hstep h
    rw [iterate_succ hs]
    exact iterate_induct hstep k h₁

/-- The results of `k` iterations, in order, and the engine after them. -/
def trace : (k : Nat) → Engine → Except GrammarError (List Bool × Engine)
  | 0, e => .ok ([], e)
  | k + 1, e => do
    let (changed, e) ← e.step
    let (results, e) ← trace k e
    return (changed :: results, e)

theorem trace_succ {e e' e'' : Engine} {changed : Bool} {results : List Bool} {k : Nat}
    (h : e.step = .ok (changed, e')) (hk : e'.trace k = .ok (results, e'')) :
    e.trace (k + 1) = .ok (changed :: results, e'') := by
  simp only [trace, h, hk, bind, Except.bind, pure, Except.pure]

theorem iterate_of_trace : ∀ {k : Nat} {e e' : Engine} {results : List Bool},
    e.trace k = .ok (results, e') → e.iterate k = .ok e'
  | 0, e, e', results, h => by
    cases h
    rfl
  | k + 1, e, e', results, h => by
    cases hs : e.step with
    | error err => simp [trace, hs, bind, Except.bind] at h
    | ok r =>
      obtain ⟨changed, e₁⟩ := r
      rw [iterate_succ hs]
      cases hk : e₁.trace k with
      | error err => simp [trace, hs, hk, bind, Except.bind] at h
      | ok r =>
        obtain ⟨rest, e₂⟩ := r
        rw [trace_succ hs hk] at h
        cases h
        exact iterate_of_trace hk

end Engine

end GrammarInduction
