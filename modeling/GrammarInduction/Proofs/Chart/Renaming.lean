import GrammarInduction.Proofs.Chart.Aggregation
import GrammarInduction.Proofs.Grammar.Renaming
import GrammarInduction.Proofs.Pattern.Renaming

/-!
# Charts under a renaming

A renaming takes the occurrences in a rule to those in the rule under the renaming
(`Pattern.occurrencesIn_under`), the chart of occurrences to the chart of the renamed ones
(`Chart.ofOccurrences_under`), and its ranking to the ranking of that (`Chart.fireRanking_under`):
values are compared with each other and never ordered.
-/

namespace GrammarInduction

section
variable (ρ : Renaming)

/-- The span of the rule under a renaming. -/
def Span.under (s : Span) : Span := { s with rule := ρ.rule s.rule }

def Occurrence.under (o : Occurrence) : Occurrence :=
  { o with values := o.values.map ρ.value, span := o.span.under ρ }

def Candidate.under (c : Candidate) : Candidate :=
  { c with values := c.values.map ρ.value, spans := c.spans.map (Span.under ρ) }

def Chart.under (chart : Chart) : Chart := ⟨chart.candidates.map (Candidate.under ρ)⟩

end

variable {ρ : Renaming}

/-! ## Occurrences -/

theorem Pattern.occurrencesIn_under (p : Pattern) (index : Nat) {r : Rule}
    (hr : ∀ v ∈ r.values, v ∈ ρ.values) :
    p.occurrencesIn index (r.under ρ) = (p.occurrencesIn index r).map (Occurrence.under ρ) := by
  unfold occurrencesIn
  rw [Rule.under_rhs, List.length_map, List.map_filterMap]
  refine List.filterMap_congr fun i _ => ?_
  have hdrop : ∀ v ∈ r.values.drop i, v ∈ ρ.values := fun v hv => hr v (List.mem_of_mem_drop hv)
  rw [Rule.under_values, ← List.map_drop, p.match?_map ρ.value_inj hdrop, Option.map_map,
    Option.map_map]
  refine congrArg (Option.map · _) (funext fun m => ?_)
  simp [Occurrence.under, Span.under]

/-! ## Charts -/

namespace Chart

/-- All values of candidates lie in the domain. -/
def Within (ρ : Renaming) (chart : Chart) : Prop :=
  ∀ c ∈ chart.candidates, ∀ v ∈ c.values, v ∈ ρ.values

section
variable {o : Occurrence} (ho : ∀ v ∈ o.values, v ∈ ρ.values)
include ho

theorem covers_under {c : Candidate} (hc : ∀ v ∈ c.values, v ∈ ρ.values) :
    (c.under ρ).covers (o.under ρ) = c.covers o := by
  rw [Bool.eq_iff_iff, Candidate.covers_iff, Candidate.covers_iff]
  exact and_congr_left' (map_eq_map_iff_of_injOn ρ.value_inj hc ho)

theorem tally_under (p : Pattern) : ∀ {n : Nat} {cs : List Candidate},
    (∀ c ∈ cs, ∀ v ∈ c.values, v ∈ ρ.values) →
    tally (o.under ρ) p n (cs.map (Candidate.under ρ)) =
      (tally o p n cs).map (Candidate.under ρ)
  | n, [], _ => rfl
  | n, c :: cs, hcs => by
    have ih := @tally_under p (n + 1) cs fun d hd => hcs d (.tail _ hd)
    have hcov := covers_under ho (hcs c List.mem_cons_self)
    rw [List.map_cons, tally, tally, hcov]
    split
    · simp [Candidate.under, Occurrence.under]
    · rw [ih, List.map_cons]

theorem add_under (patterns : List Pattern) {chart : Chart} (h : chart.Within ρ) :
    (chart.under ρ).add patterns (o.under ρ) = (chart.add patterns o).under ρ := by
  unfold add
  rw [show (o.under ρ).patternIndex = o.patternIndex from rfl]
  split
  · rename_i p _
    exact congrArg Chart.mk (tally_under ho p h)
  · rfl

theorem Within.add (patterns : List Pattern) {chart : Chart} (h : chart.Within ρ) :
    (chart.add patterns o).Within ρ := by
  unfold Chart.add
  split
  · intro c hc
    rcases mem_tally hc with hc | ⟨d, hd, -, rfl⟩ | ⟨k, rfl⟩
    · exact h c hc
    · exact h d hd
    · exact ho
  · exact h

end

theorem foldl_add_under (patterns : List Pattern) : ∀ {os : List Occurrence} {chart : Chart},
    (∀ o ∈ os, ∀ v ∈ o.values, v ∈ ρ.values) → chart.Within ρ →
    (os.map (Occurrence.under ρ)).foldl (add patterns) (chart.under ρ) =
      (os.foldl (add patterns) chart).under ρ
  | [], _, _, _ => rfl
  | o :: os, chart, hos, h => by
    have ho := hos o List.mem_cons_self
    rw [List.map_cons, List.foldl_cons, List.foldl_cons, add_under ho patterns h]
    exact foldl_add_under patterns (fun q hq => hos q (.tail _ hq)) (h.add ho patterns)

theorem ofOccurrences_under (patterns : List Pattern) {os : List Occurrence}
    (hos : ∀ o ∈ os, ∀ v ∈ o.values, v ∈ ρ.values) :
    ofOccurrences patterns (os.map (Occurrence.under ρ)) = (ofOccurrences patterns os).under ρ :=
  @foldl_add_under ρ patterns os {} hos nofun

/-- Ranking looks at counts and the order of discovery. -/
theorem fireRanking_under (chart : Chart) :
    (chart.under ρ).fireRanking = chart.fireRanking.map (Candidate.under ρ) := by
  have hcount : ∀ c : Candidate, (c.under ρ).count = c.count := fun c => by
    simp [Candidate.count, Candidate.under]
  have hfilter : (chart.under ρ).candidates.filter Candidate.fires =
      (chart.candidates.filter Candidate.fires).map (Candidate.under ρ) := by
    rw [under, List.filter_map]
    refine congrArg _ (List.filter_congr fun c _ => ?_)
    rw [Function.comp_apply, Candidate.fires, Candidate.fires, hcount]
    rfl
  rw [fireRanking, fireRanking, hfilter]
  refine (List.map_mergeSort fun c _ d _ => ?_).symm
  rw [Candidate.rankedBefore, Candidate.rankedBefore, hcount, hcount]

end Chart

end GrammarInduction
