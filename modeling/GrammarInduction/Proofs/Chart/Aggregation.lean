import GrammarInduction.Chart.Basic
import GrammarInduction.Proofs.Lists

/-!
# A chart groups occurrences

The label of an occurrence is what it is counted by, its values and its pattern source. A chart
`Groups` occurrences if it has one candidate for each of their labels, in the order in which the
labels come first, and each candidate is the group of its label (`Candidate.IsGroup`): numbered by
its position, with the spans of the group in order and the thresholds for the first occurrence of
the group. One more occurrence goes into the one candidate of its label or begins the next one
(`tally_eq`), which keeps this (`Groups.add`). So the chart of all occurrences groups those of known
patterns (`groups_ofOccurrences`), and its counts add up (`Groups.sum_counts`).

Iterations need less of it (`Tallied`): every candidate counts at least one occurrence and has the
thresholds of the pattern of one that it covers, and every occurrence of a known pattern is covered.
-/

namespace GrammarInduction

/-- What an occurrence is counted by. -/
def Occurrence.label (o : Occurrence) : List String × String := (o.values, o.pattern)

/-- The occurrences of patterns that there are. -/
def known (patterns : List Pattern) (os : List Occurrence) : List Occurrence :=
  os.filter (·.patternIndex < patterns.length)

variable {patterns : List Pattern} {os : List Occurrence} {o : Occurrence} {p : Pattern} {n : Nat}

namespace Candidate

def label (c : Candidate) : List String × String := (c.values, c.pattern)

theorem covers_iff {c : Candidate} {o : Occurrence} :
    c.covers o = true ↔ c.values = o.values ∧ c.pattern = o.pattern := by
  simp [covers]

theorem covers_eq (c : Candidate) (o : Occurrence) : c.covers o = (o.label == c.label) := by
  rw [Bool.eq_iff_iff, covers_iff, beq_iff_eq, Occurrence.label, label, Prod.mk.injEq]
  exact and_congr eq_comm eq_comm

/-- The candidate that an occurrence begins. -/
def ofFirst (o : Occurrence) (p : Pattern) (n : Nat) : Candidate :=
  ⟨o.values, o.pattern, p.fire, p.wild, n, [o.span]⟩

/-- The candidate with one more occurrence, if it covers that. -/
def extend (o : Occurrence) (c : Candidate) : Candidate :=
  if c.covers o then { c with spans := c.spans ++ [o.span] } else c

theorem extend_label (o : Occurrence) (c : Candidate) : (extend o c).label = c.label := by
  unfold extend
  split <;> rfl

/-- The candidate is number `n` and the group of its label. -/
structure IsGroup (patterns : List Pattern) (os : List Occurrence) (n : Nat) (c : Candidate) :
    Prop where
  discovery : c.discovery = n
  spans : c.spans = (os.filter (·.label == c.label)).map Occurrence.span
  first : ∃ o p, os.find? (·.label == c.label) = some o ∧ patterns[o.patternIndex]? = some p ∧
    c.fire = p.fire ∧ c.wild = p.wild

theorem IsGroup.extend {c : Candidate} (h : c.IsGroup patterns os n) (o : Occurrence) :
    (c.extend o).IsGroup patterns (os ++ [o]) n := by
  obtain ⟨q, p, hq, hp, hfire, hwild⟩ := h.first
  have hfirst : (os ++ [o]).find? (·.label == c.label) = some q := by
    rw [List.find?_append, hq, Option.some_or]
  unfold Candidate.extend
  split
  · rename_i hc
    rw [covers_eq] at hc
    have hlast : [o].filter (·.label == c.label) = [o] := List.filter_cons_of_pos hc
    refine ⟨h.discovery, ?_, q, p, hfirst, hp, hfire, hwild⟩
    rw [show label { c with spans := c.spans ++ [o.span] } = c.label from rfl, List.filter_append,
      hlast, List.map_append, ← h.spans]
    rfl
  · rename_i hc
    rw [covers_eq] at hc
    have hlast : [o].filter (·.label == c.label) = [] := List.filter_cons_of_neg hc
    refine ⟨h.discovery, ?_, q, p, hfirst, hp, hfire, hwild⟩
    rw [List.filter_append, hlast, List.append_nil, h.spans]

theorem isGroup_ofFirst (hp : patterns[o.patternIndex]? = some p)
    (hnew : o.label ∉ os.map Occurrence.label) (n : Nat) :
    (ofFirst o p n).IsGroup patterns (os ++ [o]) n := by
  have hlabel : (ofFirst o p n).label = o.label := rfl
  have hnone : ∀ q ∈ os, ¬ (q.label == o.label) = true := fun q hq he =>
    hnew (beq_iff_eq.1 he ▸ List.mem_map_of_mem hq)
  have hself : (o.label == o.label) = true := beq_self_eq_true _
  have hlast : [o].filter (·.label == o.label) = [o] := List.filter_cons_of_pos hself
  have hfind : [o].find? (·.label == o.label) = some o := List.find?_cons_of_pos hself
  refine ⟨rfl, ?_, o, p, ?_, hp, rfl, rfl⟩
  · rw [hlabel, List.filter_append, List.filter_eq_nil_iff.2 hnone, hlast]
    rfl
  · rw [hlabel, List.find?_append, List.find?_eq_none.2 hnone, hfind, Option.none_or]

end Candidate

namespace Chart

/-! ## One occurrence -/

/-- An occurrence adds to a candidate that covers it or begins a candidate. -/
theorem mem_tally : ∀ {n : Nat} {cs : List Candidate} {c : Candidate}, c ∈ tally o p n cs →
    c ∈ cs ∨ (∃ d ∈ cs, d.covers o = true ∧ c = { d with spans := d.spans ++ [o.span] }) ∨
      ∃ k, c = ⟨o.values, o.pattern, p.fire, p.wild, k, [o.span]⟩
  | n, [], c, h => .inr (.inr ⟨n, List.mem_singleton.1 h⟩)
  | n, d :: cs, c, h => by
    unfold tally at h
    split at h
    · rename_i hd
      cases h with
      | head => exact .inr (.inl ⟨d, List.mem_cons_self, hd, rfl⟩)
      | tail _ h => exact .inl (.tail _ h)
    · cases h with
      | head => exact .inl List.mem_cons_self
      | tail _ h =>
        exact (mem_tally h).imp (.tail _) (.imp_left fun ⟨c, hc, he⟩ => ⟨c, .tail _ hc, he⟩)

/-- Candidates that do not cover the occurrence are passed. -/
theorem tally_append : ∀ {cs : List Candidate}, (∀ c ∈ cs, ¬ c.covers o = true) →
    ∀ (n : Nat) (more : List Candidate),
      tally o p n (cs ++ more) = cs ++ tally o p (n + cs.length) more
  | [], _, n, more => by simp
  | c :: cs, h, n, more => by
    obtain ⟨hc, hcs⟩ := List.forall_mem_cons.1 h
    rw [List.cons_append, tally, if_neg hc, tally_append hcs, List.length_cons, List.cons_append,
      Nat.add_assoc, Nat.add_comm 1]

/-- The candidate of its label takes an occurrence; if there is none, the occurrence begins it. -/
theorem tally_eq : ∀ {n : Nat} {cs : List Candidate}, (cs.map Candidate.label).Nodup →
    tally o p n cs = cs.map (Candidate.extend o) ++
      if o.label ∈ cs.map Candidate.label then [] else [.ofFirst o p (n + cs.length)]
  | n, [], _ => by simp [tally, Candidate.ofFirst]
  | n, c :: cs, h => by
    rw [List.map_cons, List.nodup_cons] at h
    rw [tally, List.map_cons]
    by_cases hc : c.covers o = true
    · have hlabel : o.label = c.label := by simpa [Candidate.covers_eq] using hc
      -- no later candidate has this label
      have hrest : cs.map (Candidate.extend o) = cs := by
        refine (List.map_congr_left fun d hd => ?_).trans (List.map_id cs)
        have hne : o.label ≠ d.label := fun he =>
          h.1 (hlabel ▸ he ▸ List.mem_map_of_mem (f := Candidate.label) hd)
        rw [Candidate.extend, Candidate.covers_eq, if_neg (by simpa using hne), id]
      rw [if_pos hc, hrest, Candidate.extend, if_pos hc, if_pos (by simp [hlabel]),
        List.append_nil]
    · have hne : o.label ≠ c.label := by simpa [Candidate.covers_eq] using hc
      have hmem : o.label ∈ (c :: cs).map Candidate.label ↔ o.label ∈ cs.map Candidate.label := by
        rw [List.map_cons, List.mem_cons, or_iff_right hne]
      rw [if_neg hc, tally_eq h.2, Candidate.extend, if_neg hc, List.cons_append]
      simp only [hmem, List.length_cons, Nat.add_assoc, Nat.add_comm 1]

/-! ## All occurrences -/

/-- The candidates are the groups of the occurrences (module doc). -/
structure Groups (patterns : List Pattern) (os : List Occurrence) (chart : Chart) : Prop where
  labels : chart.candidates.map Candidate.label = (os.map Occurrence.label).eraseDups
  groups : ∀ n (c : Candidate), chart.candidates[n]? = some c → c.IsGroup patterns os n

namespace Groups

variable {chart : Chart}

theorem nodup (h : Groups patterns os chart) : (chart.candidates.map Candidate.label).Nodup :=
  h.labels ▸ nodup_eraseDups _

theorem tally (h : Groups patterns os chart) (hp : patterns[o.patternIndex]? = some p) :
    Groups patterns (os ++ [o]) ⟨Chart.tally o p 0 chart.candidates⟩ := by
  have hmem : o.label ∈ chart.candidates.map Candidate.label ↔
      o.label ∈ os.map Occurrence.label := by rw [h.labels, List.mem_eraseDups]
  simp only [tally_eq h.nodup, hmem, Nat.zero_add]
  constructor
  · have hlabels : (chart.candidates.map (Candidate.extend o)).map Candidate.label =
        chart.candidates.map Candidate.label := by
      rw [List.map_map]
      exact List.map_congr_left fun c _ => c.extend_label o
    rw [List.map_append, hlabels, h.labels, List.map_append, List.map_singleton, eraseDups_concat]
    split <;> rfl
  · intro n c hc
    rcases Nat.lt_or_ge n chart.candidates.length with hn | hn
    · rw [List.getElem?_append_left (by simpa using hn), List.getElem?_map,
        Option.map_eq_some_iff] at hc
      obtain ⟨d, hd, rfl⟩ := hc
      exact (h.groups n d hd).extend o
    · rw [List.getElem?_append_right (by simpa using hn), List.length_map] at hc
      split at hc
      · cases hc
      · rename_i hnew
        rw [List.getElem?_singleton] at hc
        split at hc
        · obtain rfl : n = chart.candidates.length := by omega
          cases hc
          exact Candidate.isGroup_ofFirst hp hnew _
        · cases hc

theorem add (h : Groups patterns (known patterns os) chart) (o : Occurrence) :
    Groups patterns (known patterns (os ++ [o])) (chart.add patterns o) := by
  unfold Chart.add
  rw [known, List.filter_append]
  split
  · rename_i p hp
    rw [List.filter_cons_of_pos (by simpa using (List.getElem?_eq_some_iff.1 hp).1)]
    exact h.tally hp
  · rename_i hnone
    rw [List.filter_cons_of_neg (by simpa using hnone), List.filter_nil, List.append_nil]
    exact h

theorem foldl : ∀ {more os : List Occurrence} {chart : Chart},
    Groups patterns (known patterns os) chart →
    Groups patterns (known patterns (os ++ more)) (more.foldl (Chart.add patterns) chart)
  | [], os, chart, h => by rwa [List.append_nil]
  | o :: more, os, chart, h => by
    have ih := @foldl more _ _ (h.add o)
    rwa [List.append_assoc] at ih

end Groups

theorem groups_ofOccurrences (patterns : List Pattern) (os : List Occurrence) :
    Groups patterns (known patterns os) (ofOccurrences patterns os) :=
  @Groups.foldl patterns os [] {} ⟨rfl, nofun⟩

/-! ## Counts -/

namespace Groups

variable {chart : Chart} (h : Groups patterns os chart)
include h

theorem exists_isGroup {c : Candidate} (hc : c ∈ chart.candidates) :
    ∃ n, c.IsGroup patterns os n :=
  (List.mem_iff_getElem?.1 hc).imp fun n hn => h.groups n c hn

theorem count_eq {c : Candidate} (hc : c ∈ chart.candidates) :
    c.count = (os.map Occurrence.label).count c.label := by
  obtain ⟨n, hn⟩ := h.exists_isGroup hc
  rw [Candidate.count, hn.spans, List.length_map, List.count, List.countP_map,
    List.countP_eq_length_filter]
  rfl

/-- All occurrences are counted, and none twice. -/
theorem sum_counts : (chart.candidates.map Candidate.count).sum = os.length := by
  have hcounts : chart.candidates.map Candidate.count =
      (os.map Occurrence.label).eraseDups.map (os.map Occurrence.label).count := by
    rw [← h.labels, List.map_map]
    exact List.map_congr_left fun c hc => h.count_eq hc
  rw [hcounts, sum_map_count_eraseDups, List.length_map]

/-- Looking up a count by values and pattern source. -/
theorem countOf_eq (values : List String) (pattern : String) :
    chart.countOf values pattern = (os.map Occurrence.label).count (values, pattern) := by
  unfold countOf
  split
  · rename_i c hc
    have hlabel : c.label = (values, pattern) := by
      simpa [Candidate.label, and_comm] using List.find?_some hc
    rw [h.count_eq (List.mem_of_find?_eq_some hc), hlabel]
  · rename_i hnone
    refine (List.count_eq_zero.2 fun hmem => ?_).symm
    rw [← List.mem_eraseDups, ← h.labels] at hmem
    obtain ⟨c, hc, hlabel⟩ := List.mem_map.1 hmem
    have := List.find?_eq_none.1 hnone c hc
    simp_all [Candidate.label]

end Groups

/-- The chart counts the occurrences (module doc). -/
structure Tallied (patterns : List Pattern) (os : List Occurrence) (chart : Chart) : Prop where
  counts : ∀ c ∈ chart.candidates, 1 ≤ c.count ∧ ∃ o ∈ os, ∃ p,
    patterns[o.patternIndex]? = some p ∧ c.covers o = true ∧ c.fire = p.fire ∧ c.wild = p.wild
  counted : ∀ o ∈ os, ∀ p, patterns[o.patternIndex]? = some p →
    ∃ c ∈ chart.candidates, c.covers o = true

theorem tallied_ofOccurrences (patterns : List Pattern) (os : List Occurrence) :
    Tallied patterns os (ofOccurrences patterns os) := by
  have h := groups_ofOccurrences patterns os
  constructor
  · intro c hc
    obtain ⟨n, hn⟩ := h.exists_isGroup hc
    obtain ⟨o, p, ho, hp, hfire, hwild⟩ := hn.first
    have hmem := List.mem_of_find?_eq_some ho
    have hlabel : o.label = c.label := by simpa using List.find?_some ho
    have hcount : 0 < (List.map Occurrence.label (known patterns os)).count c.label :=
      List.count_pos_iff.2 (hlabel ▸ List.mem_map_of_mem hmem)
    rw [← h.count_eq hc] at hcount
    exact ⟨hcount, o, List.mem_of_mem_filter hmem, p, hp, by simp [Candidate.covers_eq, hlabel],
      hfire, hwild⟩
  · intro o ho p hp
    have hknown : o ∈ known patterns os :=
      List.mem_filter.2 ⟨ho, by simpa using (List.getElem?_eq_some_iff.1 hp).1⟩
    have hmem : o.label ∈ (ofOccurrences patterns os).candidates.map Candidate.label := by
      rw [h.labels, List.mem_eraseDups]
      exact List.mem_map_of_mem hknown
    obtain ⟨c, hc, hlabel⟩ := List.mem_map.1 hmem
    exact ⟨c, hc, by simp [Candidate.covers_eq, hlabel]⟩

end Chart

end GrammarInduction
