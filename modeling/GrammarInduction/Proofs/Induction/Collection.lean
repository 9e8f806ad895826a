import GrammarInduction.Induction.Engine
import GrammarInduction.Proofs.Pattern.Matching

/-!
# What an iteration collects

An engine looks at every rule, every pattern and every offset of the rule, in this order. The
offsets at which a pattern fits (`Pattern.offsets`) give one occurrence each, and no others do
(`Pattern.occurrencesIn_eq`). With the positions of their rules, patterns and offsets, all
occurrences are in lexicographic order (`Engine.pairwise_sites`), so that `Engine.collect` has exactly
one for each place at which a pattern fits (`Engine.collect_sites`).
-/

namespace GrammarInduction

/-! ## One pattern in one rule -/

namespace Pattern

variable {p : Pattern} {q i : Nat} {r : Rule}

theorem match?_isSome_iff {values : List String} :
    (p.match? values).isSome = true ↔ p.items ≠ [] ∧ p.Fits values := by
  by_cases hne : p.items = []
  · simp [match?, hne]
  · simp only [Option.isSome_iff_exists, match?_eq_some_iff hne, exists_and_left, exists_eq,
      and_true, hne, ne_eq, not_false_eq_true, true_and]

/-- The offsets at which a pattern matches the rule. -/
def offsets (p : Pattern) (r : Rule) : List Nat :=
  (List.range r.rhs.length).filter fun i => (p.match? (r.values.drop i)).isSome

theorem mem_offsets_iff :
    i ∈ p.offsets r ↔ p.items ≠ [] ∧ p.Fits (r.values.drop i) := by
  rw [offsets, List.mem_filter, List.mem_range, match?_isSome_iff]
  refine and_iff_right_of_imp fun ⟨hne, hfits⟩ => ?_
  have hpos := List.length_pos_iff.2 hne
  have hlen := hfits.length
  rw [List.length_drop, Rule.values, List.length_map] at hlen
  omega

theorem pairwise_offsets (p : Pattern) (r : Rule) : (p.offsets r).Pairwise (· < ·) :=
  List.pairwise_lt_range.filter _

/-- What is recorded where a pattern fits: the values from the offset on, as many as there are
items, and the span of these. -/
def occurrenceAt (p : Pattern) (q : Nat) (r : Rule) (i : Nat) : Occurrence where
  values := (r.values.drop i).take p.items.length
  pattern := p.source
  patternIndex := q
  span := ⟨r.id, i, i + p.items.length - 1⟩
  wildcards := wildcardPositions 0 p.items

theorem occurrencesIn_eq (p : Pattern) (q : Nat) (r : Rule) :
    p.occurrencesIn q r = (p.offsets r).map (p.occurrenceAt q r) := by
  refine (filterMap_eq_map_filter (g := p.occurrenceAt q r) (fun i o h => ?_) _).trans ?_
  · obtain ⟨m, hm, rfl⟩ := Option.map_eq_some_iff.1 h
    obtain ⟨hne, hfits⟩ := match?_isSome_iff.1 (Option.isSome_of_eq_some hm)
    obtain ⟨-, rfl⟩ := (match?_eq_some_iff hne).1 hm
    simp [occurrenceAt, List.length_take_of_le hfits.length]
  · simp only [Option.isSome_map, offsets]

/-- An occurrence of pattern number `q` at an offset of a rule. Its span begins there and ends in the
rule, and holds its values, one for each item. -/
structure Records (p : Pattern) (q : Nat) (r : Rule) (i : Nat) (o : Occurrence) : Prop where
  pattern : o.pattern = p.source
  patternIndex : o.patternIndex = q
  rule : o.span.rule = r.id
  first : o.span.first = i
  last : o.span.last < r.rhs.length
  values : (r.values.drop o.span.first).take o.span.length = o.values
  length : o.values.length = p.items.length
  wildcards : o.wildcards = wildcardPositions 0 p.items

theorem records_occurrenceAt (q : Nat) (h : i ∈ p.offsets r) :
    p.Records q r i (p.occurrenceAt q r i) := by
  obtain ⟨hne, hfits⟩ := mem_offsets_iff.1 h
  have hpos := List.length_pos_iff.2 hne
  have hlen := hfits.length
  rw [List.length_drop, Rule.values, List.length_map] at hlen
  have hspan : i + p.items.length - 1 + 1 - i = p.items.length := by omega
  refine ⟨rfl, rfl, rfl, rfl, ?_, ?_, List.length_take_of_le hfits.length, rfl⟩
  · change i + p.items.length - 1 < _
    omega
  · rw [occurrenceAt, Span.length, hspan]

end Pattern

/-! ## All patterns in all rules -/

namespace Engine

/-- Where patterns match in a rule: the number of the pattern and the offset. -/
def sitesIn (e : Engine) (r : Rule) : List (Nat × Nat) :=
  e.patterns.zipIdx.flatMap fun p => (p.1.offsets r).map (p.2, ·)

/-- Where patterns match: the numbers of the rule and of the pattern, and the offset. -/
def sites (e : Engine) : List (Nat × Nat × Nat) :=
  e.grammar.rules.zipIdx.flatMap fun r => (e.sitesIn r.1).map (r.2, ·)

variable (e : Engine)

theorem pairwise_sites : e.sites.Pairwise (Prod.Lex (· < ·) (Prod.Lex (· < ·) (· < ·))) :=
  pairwise_flatMap_zipIdx _ e.sitesIn fun r _ =>
    pairwise_flatMap_zipIdx _ (Pattern.offsets · r) fun p _ => p.pairwise_offsets r

theorem mem_sites_iff {k q i : Nat} : (k, q, i) ∈ e.sites ↔ ∃ r p,
    e.grammar.rules[k]? = some r ∧ e.patterns[q]? = some p ∧ p.items ≠ [] ∧
      p.Fits (r.values.drop i) := by
  simp [sites, sitesIn, List.mem_zipIdx_iff_getElem?, Pattern.mem_offsets_iff]

theorem records_collect : List.Forall₂ (fun s o => ∃ r p, e.grammar.rules[s.1]? = some r ∧
    e.patterns[s.2.1]? = some p ∧ p.Records s.2.1 r s.2.2 o) e.sites e.collect := by
  have hrules : e.collect = e.grammar.rules.zipIdx.flatMap fun r =>
      e.patterns.zipIdx.flatMap fun p => p.1.occurrencesIn p.2 r.1 := by
    conv_lhs => rw [collect, ← List.zipIdx_map_fst 0 e.grammar.rules, List.flatMap_map]
  rw [hrules]
  refine forall₂_flatMap fun ⟨r, k⟩ hr => ?_
  rw [sitesIn, List.map_flatMap]
  refine forall₂_flatMap fun ⟨p, q⟩ hp => ?_
  rw [Pattern.occurrencesIn_eq, List.map_map, List.forall₂_map_left_iff,
    List.forall₂_map_right_iff, List.forall₂_same]
  exact fun i hi => ⟨r, p, List.mem_zipIdx_iff_getElem?.1 hr, List.mem_zipIdx_iff_getElem?.1 hp,
    Pattern.records_occurrenceAt q hi⟩

/-- What is collected is, in the order of rules, then patterns, then offsets, one occurrence for each
place at which a pattern with items fits the values of a rule. -/
theorem collect_sites : ∃ sites : List (Nat × Nat × Nat),
    sites.Pairwise (Prod.Lex (· < ·) (Prod.Lex (· < ·) (· < ·))) ∧
      (∀ k q i, (k, q, i) ∈ sites ↔ ∃ r p, e.grammar.rules[k]? = some r ∧
        e.patterns[q]? = some p ∧ p.items ≠ [] ∧ p.Fits (r.values.drop i)) ∧
      List.Forall₂ (fun s o => ∃ r p, e.grammar.rules[s.1]? = some r ∧
        e.patterns[s.2.1]? = some p ∧ p.Records s.2.1 r s.2.2 o) sites e.collect :=
  ⟨e.sites, e.pairwise_sites, fun _ _ _ => e.mem_sites_iff, e.records_collect⟩

end Engine

end GrammarInduction
