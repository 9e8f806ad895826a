import GrammarInduction.Proofs.Chart.Aggregation
import GrammarInduction.Proofs.Induction.Collection
import GrammarInduction.Proofs.Pattern.Program

/-!
# How often a place is counted

Clauses of a program may share a source, and a candidate counts for all of them. Patterns of one
source match at the same places of the grammar (`Engine.places`), so what a candidate counts are
these places, once for each of the clauses (`Engine.spans_perm`): its count is the number of places
times the number of clauses, and its spans are distinct if there is one clause
(`Engine.count_places`).
-/

namespace GrammarInduction

/-! ## Places in a rule -/

namespace Pattern

variable {p q : Pattern} {values : List String} {r : Rule} {s : Span}

/-- The spans of a rule at which the pattern matches these values. -/
def spansIn (p : Pattern) (values : List String) (r : Rule) : List Span :=
  ((p.offsets r).filter fun i => (r.values.drop i).take p.items.length = values).map fun i =>
    ⟨r.id, i, i + values.length - 1⟩

theorem values_match?_iff {vs : List String} :
    (p.match? vs).map PatternMatch.values = some values ↔
      (p.match? vs).isSome = true ∧ vs.take p.items.length = values := by
  unfold match?
  split <;> simp [Option.isSome_iff_exists]

theorem mem_spansIn_iff : s ∈ p.spansIn values r ↔
    (p.match? (r.values.drop s.first)).map PatternMatch.values = some values ∧
      s = ⟨r.id, s.first, s.first + values.length - 1⟩ := by
  simp only [spansIn, List.mem_map, List.mem_filter, decide_eq_true_eq, values_match?_iff,
    mem_offsets_iff, match?_isSome_iff]
  constructor
  · rintro ⟨i, hi, rfl⟩
    exact ⟨hi, rfl⟩
  · rintro ⟨hi, hs⟩
    exact ⟨s.first, hi, hs.symm⟩

theorem nodup_spansIn (p : Pattern) (values : List String) (r : Rule) :
    (p.spansIn values r).Nodup := by
  have hoffsets : (p.offsets r).Nodup := (p.pairwise_offsets r).imp Nat.ne_of_lt
  exact (hoffsets.filter _).map fun _ _ h => congrArg Span.first h

/-- Thresholds do not matter for matching. -/
theorem spansIn_congr (h : p.items = q.items) (values : List String) (r : Rule) :
    p.spansIn values r = q.spansIn values r := by
  have hmatch : p.match? = q.match? := by
    funext vs
    simp only [match?, h]
  rw [spansIn, spansIn, offsets, offsets, hmatch, h]

/-- What is recorded under some source for some values. -/
theorem spans_occurrencesIn (p : Pattern) (k : Nat) (values : List String) (source : String)
    (r : Rule) : ((p.occurrencesIn k r).filter (·.label == (values, source))).map Occurrence.span =
      if p.source == source then p.spansIn values r else [] := by
  rw [occurrencesIn_eq, List.filter_map, List.map_map]
  split
  · rename_i hsource
    rw [beq_iff_eq] at hsource
    have hlabel : (fun o : Occurrence => o.label == (values, source)) ∘ p.occurrenceAt k r =
        fun i => decide ((r.values.drop i).take p.items.length = values) := by
      funext i
      simp [occurrenceAt, Occurrence.label, hsource, Bool.beq_eq_decide_eq]
    rw [hlabel, spansIn]
    refine List.map_congr_left fun i hi => ?_
    obtain ⟨hi, hvalues⟩ := List.mem_filter.1 hi
    have hlen : values.length = p.items.length := by
      rw [← of_decide_eq_true hvalues]
      exact List.length_take_of_le (mem_offsets_iff.1 hi).2.length
    rw [hlen]
    rfl
  · rename_i hsource
    rw [List.map_eq_nil_iff, List.filter_eq_nil_iff]
    intro i _ hlabel
    exact hsource (beq_iff_eq.2 (congrArg Prod.snd (beq_iff_eq.1 hlabel)))

end Pattern

/-! ## Places in the grammar -/

namespace Engine

/-- A pattern of this source matches these values at the span of a rule. -/
def MatchesAt (e : Engine) (source : String) (values : List String) (s : Span) : Prop :=
  ∃ r ∈ e.grammar.rules, ∃ p ∈ e.patterns, p.source = source ∧
    (p.match? (r.values.drop s.first)).map PatternMatch.values = some values ∧
    s = ⟨r.id, s.first, s.first + values.length - 1⟩

/-- The spans of all rules at which the pattern matches these values. -/
def places (e : Engine) (p : Pattern) (values : List String) : List Span :=
  e.grammar.rules.flatMap (p.spansIn values)

variable {e : Engine} {program : String} {p : Pattern}

theorem nodup_places (hid : (e.grammar.rules.map Rule.id).Nodup) (p : Pattern)
    (values : List String) : (e.places p values).Nodup := by
  refine List.nodup_flatMap.2 ⟨fun r _ => p.nodup_spansIn values r, ?_⟩
  refine (List.pairwise_map.1 hid).imp fun {r q} hne s hr hq => hne ?_
  have hrule : ∀ {r : Rule}, s ∈ p.spansIn values r → s.rule = r.id := fun h =>
    congrArg Span.rule (Pattern.mem_spansIn_iff.1 h).2
  exact (hrule hr).symm.trans (hrule hq)

theorem mem_places_iff (hprogram : parseProgram program = .ok e.patterns) (hp : p ∈ e.patterns)
    (values : List String) (s : Span) :
    s ∈ e.places p values ↔ e.MatchesAt p.source values s := by
  rw [places, List.mem_flatMap]
  constructor
  · rintro ⟨r, hr, hs⟩
    obtain ⟨hm, hs⟩ := Pattern.mem_spansIn_iff.1 hs
    exact ⟨r, hr, p, hp, rfl, hm, hs⟩
  · rintro ⟨r, hr, q, hq, hsource, hm, hs⟩
    refine ⟨r, hr, ?_⟩
    rw [Pattern.spansIn_congr (items_eq_of_source_eq hprogram hp hq hsource.symm)]
    exact Pattern.mem_spansIn_iff.2 ⟨hm, hs⟩

/-! ## Counting -/

theorem spans_collect (e : Engine) (values : List String) (source : String) :
    (e.collect.filter (·.label == (values, source))).map Occurrence.span =
      e.grammar.rules.flatMap fun r =>
        e.patterns.flatMap fun p => if p.source == source then p.spansIn values r else [] := by
  rw [collect, List.filter_flatMap, List.map_flatMap]
  congr 1
  funext r
  rw [List.filter_flatMap, List.map_flatMap]
  simp only [Pattern.spans_occurrencesIn]
  conv_rhs => rw [← List.zipIdx_map_fst 0 e.patterns, List.flatMap_map]

/-- Every place is counted once for each clause of the source. -/
theorem spans_perm (hprogram : parseProgram program = .ok e.patterns) (hp : p ∈ e.patterns)
    (values : List String) :
    ((e.collect.filter (·.label == (values, p.source))).map Occurrence.span).Perm
      (List.replicate ((e.patterns.map Pattern.source).count p.source)
        (e.places p values)).flatten := by
  have hsame : ∀ r, (e.patterns.flatMap fun q =>
      if q.source == p.source then q.spansIn values r else []) =
        (List.replicate ((e.patterns.map Pattern.source).count p.source)
          (p.spansIn values r)).flatten := by
    intro r
    rw [List.count, List.countP_map, ← flatMap_ite]
    refine List.flatMap_congr fun q hq => ?_
    simp only [Function.comp]
    split
    · rename_i hsource
      exact Pattern.spansIn_congr (items_eq_of_source_eq hprogram hq hp (beq_iff_eq.1 hsource)) _ r
    · rfl
  rw [spans_collect]
  simp only [hsame]
  exact flatMap_replicate_perm _ _ _

theorem known_collect (e : Engine) : known e.patterns e.collect = e.collect := by
  refine List.filter_eq_self.2 fun o ho => ?_
  obtain ⟨s, -, r, p, -, hp, hrec⟩ := exists_left_of_forall₂ e.records_collect ho
  simpa [hrec.patternIndex] using (List.getElem?_eq_some_iff.1 hp).1

/-- A candidate has the source of a pattern and counts the occurrences of its label, at least one. -/
theorem spans_of_mem_candidates {c : Candidate}
    (hc : c ∈ (Chart.ofOccurrences e.patterns e.collect).candidates) :
    c.spans = (e.collect.filter (·.label == c.label)).map Occurrence.span ∧ c.spans ≠ [] ∧
      ∃ p ∈ e.patterns, p.source = c.pattern := by
  have hgroups := Chart.groups_ofOccurrences e.patterns e.collect
  rw [known_collect] at hgroups
  obtain ⟨n, hn⟩ := hgroups.exists_isGroup hc
  obtain ⟨hcount, o, ho, -, -, hcover, -⟩ :=
    (Chart.tallied_ofOccurrences e.patterns e.collect).counts c hc
  obtain ⟨s, -, r, p, -, hp, hrec⟩ := exists_left_of_forall₂ e.records_collect ho
  exact ⟨hn.spans, List.length_pos_iff.1 hcount, p, List.mem_of_getElem? hp,
    hrec.pattern.symm.trans (Candidate.covers_iff.1 hcover).2.symm⟩

/-- A candidate counts each place at which a pattern of its source matches its values, once for each
clause of this source. -/
theorem count_places (hid : (e.grammar.rules.map Rule.id).Nodup)
    (hprogram : parseProgram program = .ok e.patterns) {c : Candidate}
    (hc : c ∈ (Chart.ofOccurrences e.patterns e.collect).candidates) :
    let clauses := (e.patterns.map Pattern.source).count c.pattern
    ∃ places : List Span, places.Nodup ∧
      (∀ s, s ∈ places ↔ e.MatchesAt c.pattern c.values s) ∧
      c.count = clauses * places.length ∧ (∀ s ∈ c.spans, s ∈ places) ∧
      (∀ s ∈ places, c.spans.count s = clauses) ∧ (c.spans.Nodup ↔ clauses = 1) := by
  intro clauses
  obtain ⟨hspans, hne, p, hp, hsource⟩ := spans_of_mem_candidates hc
  have hperm := spans_perm hprogram hp c.values
  have hmem := mem_places_iff hprogram hp c.values
  rw [hsource] at hperm hmem
  change ((e.collect.filter (·.label == c.label)).map Occurrence.span).Perm _ at hperm
  rw [← hspans] at hperm
  have hnodup := nodup_places hid p c.values
  refine ⟨e.places p c.values, hnodup, hmem, ?_, fun s => mem_of_perm_replicate hperm,
    fun s => count_of_perm_replicate hperm hnodup, nodup_iff_of_perm_replicate hperm hnodup hne⟩
  rw [Candidate.count, hperm.length_eq, List.length_flatten, List.map_replicate,
    List.sum_replicate_nat]

/-! ### Two clauses of one source -/

/-- There is one place at which the two clauses match. -/
def sharedSource : Engine where
  grammar := { start := "S", rules := [⟨"S", [⟨"a", true, 0⟩, ⟨"b", true, 1⟩], 0⟩] }
  patterns := List.replicate 2 ⟨[.var "X", .var "Y"], .ofNat 2, .ofNat 9⟩

theorem parseProgram_sharedSource :
    parseProgram "2, 9, X Y; 2, 9, X Y" = .ok sharedSource.patterns := by
  decide +kernel

/-- The one candidate. -/
def sharedCandidate : Candidate :=
  ⟨["a", "b"], "X Y", .ofNat 2, .ofNat 9, 0, [⟨0, 0, 1⟩, ⟨0, 0, 1⟩]⟩

theorem sharedCandidate_mem : sharedCandidate ∈
    (Chart.ofOccurrences sharedSource.patterns sharedSource.collect).candidates := by
  decide +kernel

theorem count_places_sharedSource :
    (sharedSource.grammar.rules.map Rule.id).Nodup ∧
      parseProgram "2, 9, X Y; 2, 9, X Y" = .ok sharedSource.patterns ∧
      sharedCandidate ∈
        (Chart.ofOccurrences sharedSource.patterns sharedSource.collect).candidates ∧
      ∃ places : List Span, places.Nodup ∧
        (∀ s, s ∈ places ↔ sharedSource.MatchesAt "X Y" ["a", "b"] s) ∧
        sharedCandidate.count = 2 * places.length := by
  have hid : (sharedSource.grammar.rules.map Rule.id).Nodup := by decide
  obtain ⟨places, hnodup, hmem, hcount, -⟩ :=
    count_places hid parseProgram_sharedSource sharedCandidate_mem
  have hclauses : (sharedSource.patterns.map Pattern.source).count sharedCandidate.pattern = 2 := by
    decide +kernel
  exact ⟨hid, parseProgram_sharedSource, sharedCandidate_mem, places, hnodup, hmem,
    hclauses ▸ hcount⟩

/-- The one place is counted twice, and the candidate fires. -/
theorem sharedSource_counts_twice :
    (sharedSource.grammar.rules.map Rule.id).Nodup ∧
      parseProgram "2, 9, X Y; 2, 9, X Y" = .ok sharedSource.patterns ∧
      ∃ c ∈ (Chart.ofOccurrences sharedSource.patterns sharedSource.collect).candidates,
        (∀ s, sharedSource.MatchesAt c.pattern c.values s ↔ s = ⟨0, 0, 1⟩) ∧
        c.count = 2 ∧ ¬ c.spans.Nodup ∧ c.fires = true := by
  refine ⟨by decide, parseProgram_sharedSource, sharedCandidate, sharedCandidate_mem, fun s => ?_,
    by decide, by decide, by decide +kernel⟩
  have hplaces : sharedSource.places ⟨[.var "X", .var "Y"], .ofNat 2, .ofNat 9⟩ ["a", "b"] =
      [⟨0, 0, 1⟩] := by decide +kernel
  have hmem := mem_places_iff parseProgram_sharedSource
    (List.mem_replicate.2 ⟨by decide, rfl⟩) ["a", "b"] s
  rw [hplaces, List.mem_singleton] at hmem
  exact hmem.symm

end Engine

end GrammarInduction
