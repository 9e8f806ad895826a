import GrammarInduction.Proofs.Chart.Aggregation
import Mathlib.Data.List.Nodup

/-!
# A chart with an index

A chart may keep an index beside its candidates, from labels to positions, and a count in each
candidate (`IndexedChart`). An occurrence whose label has the position after the last one begins a
candidate there, and it is counted at the position of its label.

The index is a bijection from the labels of the candidates to their positions, and the counts are
the numbers of spans (`Indexed`). Both hold at the beginning and after every occurrence
(`Indexed.add?`), so that there always is a candidate at the position, and the candidates are those
of the chart without an index. Looking a count up by the index or by going through the candidates
gives the same (`Indexed.countAt_eq`, `Indexed.countOf_eq`).
-/

namespace GrammarInduction

/-- A candidate that keeps its count. -/
structure Entry where
  values : List String
  pattern : String
  count : Nat
  spans : List Span
  fire : Binary64
  wild : Binary64
  discovery : Nat
deriving DecidableEq, Repr

namespace Entry

def label (e : Entry) : List String × String := (e.values, e.pattern)

/-- The entry without its count. -/
def candidate (e : Entry) : Candidate :=
  ⟨e.values, e.pattern, e.fire, e.wild, e.discovery, e.spans⟩

/-- One more occurrence. -/
def record (e : Entry) (o : Occurrence) : Entry :=
  { e with count := e.count + 1, spans := e.spans ++ [o.span] }

/-- Whether the entry has these values and this pattern source. -/
def isOf (values : List String) (pattern : String) (e : Entry) : Bool :=
  e.pattern == pattern && e.values.length == values.length &&
    (e.values.zip values).all fun (v, w) => v == w

end Entry

/-- Entries in the order of their discovery, and the position of each label. -/
structure IndexedChart where
  entries : List Entry := []
  index : Std.HashMap (List String × String) Nat := {}

namespace IndexedChart

/-- Counts an occurrence of the pattern `p`. There is no chart if there is no entry at the position
of the label. -/
def add? (chart : IndexedChart) (o : Occurrence) (p : Pattern) : Option IndexedChart :=
  let next := chart.entries.length
  let slot := chart.index.getD o.label next
  let entries :=
    if slot = next then
      chart.entries ++ [⟨o.values, o.pattern, 0, [], p.fire, p.wild, next⟩]
    else chart.entries
  entries[slot]?.map fun e => ⟨entries.set slot (e.record o), chart.index.insertIfNew o.label next⟩

/-- Counts an occurrence, unless there is no pattern of its index. -/
def count? (patterns : List Pattern) (chart : IndexedChart) (o : Occurrence) :
    Option IndexedChart :=
  match patterns[o.patternIndex]? with
  | some p => chart.add? o p
  | none => some chart

/-- The chart of occurrences of the patterns of a program. -/
def ofOccurrences? (patterns : List Pattern) (os : List Occurrence) : Option IndexedChart :=
  os.foldlM (count? patterns) {}

/-- How often the values were seen under a pattern source, by going through the entries. -/
def countOf (chart : IndexedChart) (values : List String) (pattern : String) : Nat :=
  match chart.entries.find? (Entry.isOf values pattern) with
  | some e => e.count
  | none => 0

/-- How often the values were seen under a pattern source, by the index. -/
def countAt (chart : IndexedChart) (values : List String) (pattern : String) : Nat :=
  match chart.index[(values, pattern)]? >>= fun slot => chart.entries[slot]? with
  | some e => e.count
  | none => 0

/-- The chart without index and counts. -/
def toChart (chart : IndexedChart) : Chart := ⟨chart.entries.map Entry.candidate⟩

/-- The labels, by their positions. -/
def labels (chart : IndexedChart) : List (List String × String) := chart.entries.map Entry.label

/-- The index leads from each label to its position, and from no other label; the counts are right
(module doc). -/
structure Indexed (chart : IndexedChart) : Prop where
  index : ∀ (label : List String × String) (i : Nat),
    chart.index[label]? = some i ↔ chart.labels[i]? = some label
  counts : ∀ e ∈ chart.entries, e.count = e.spans.length

namespace Indexed

theorem empty : Indexed {} := ⟨by simp [labels], nofun⟩

variable {chart : IndexedChart} {o : Occurrence} {p : Pattern}

/-- A label that is indexed keeps its position. -/
theorem insertIfNew_of_some {i : Nat} (hi : chart.index[o.label]? = some i) (n : Nat)
    (label : List String × String) :
    (chart.index.insertIfNew o.label n)[label]? = chart.index[label]? := by
  have hmem : o.label ∈ chart.index := by
    rw [Std.HashMap.mem_iff_isSome_getElem?, hi]
    rfl
  rw [Std.HashMap.getElem?_insertIfNew, if_neg fun h => h.2 hmem]

/-- Entries before the position of a label have other labels. -/
theorem not_covers (h : chart.Indexed) {before after : List Entry}
    (hentries : chart.entries = before ++ after)
    (hfar : ∀ j, chart.index[o.label]? = some j → before.length ≤ j) :
    ∀ c ∈ before.map Entry.candidate, ¬ c.covers o = true := by
  intro c hc hcovers
  obtain ⟨e, he, rfl⟩ := List.mem_map.1 hc
  obtain ⟨j, hj⟩ := List.mem_iff_getElem?.1 he
  have hlt : j < before.length := (List.getElem?_eq_some_iff.1 hj).1
  have hlabel : o.label = e.label := by
    rw [Candidate.covers_eq, beq_iff_eq] at hcovers
    exact hcovers
  have hindex : chart.index[o.label]? = some j := by
    rw [h.index, labels, hentries, List.map_append, List.getElem?_append_left (by simpa using hlt),
      List.getElem?_map, hj, hlabel]
    rfl
  exact Nat.not_le_of_lt hlt (hfar j hindex)

/-- The occurrence is counted at the position of its label. -/
theorem add?_of_some (h : chart.Indexed) {i : Nat} (hi : chart.index[o.label]? = some i) :
    ∃ after, chart.add? o p = some after ∧ after.Indexed ∧
      after.toChart = ⟨Chart.tally o p 0 chart.toChart.candidates⟩ := by
  obtain ⟨e, he, hlabel⟩ : ∃ e, chart.entries[i]? = some e ∧ e.label = o.label := by
    simpa [labels] using (h.index _ i).1 hi
  obtain ⟨before, rest, hentries, hlen⟩ : ∃ before rest,
      chart.entries = before ++ e :: rest ∧ before.length = i := by
    obtain ⟨hlt, rfl⟩ := List.getElem?_eq_some_iff.1 he
    refine ⟨chart.entries.take i, chart.entries.drop (i + 1), ?_, List.length_take_of_le hlt.le⟩
    rw [List.getElem_cons_drop, List.take_append_drop]
  have hne : i ≠ chart.entries.length := by simp [hentries, hlen]
  have hslot : chart.index.getD o.label chart.entries.length = i := by
    rw [Std.HashMap.getD_eq_getD_getElem?, hi, Option.getD_some]
  have hset : chart.entries.set i (e.record o) = before ++ e.record o :: rest := by
    rw [hentries, List.set_append_right i _ hlen.le, hlen, Nat.sub_self, List.set_cons_zero]
  refine ⟨⟨before ++ e.record o :: rest,
    chart.index.insertIfNew o.label chart.entries.length⟩, ?_, ⟨?_, ?_⟩, ?_⟩
  · simp only [add?, hslot, if_neg hne, he, Option.map_some, hset]
  · intro label j
    rw [insertIfNew_of_some hi, h.index, labels, labels, hentries, List.map_append, List.map_append]
    rfl
  · have hcounts := h.counts
    rw [hentries, List.forall_mem_append, List.forall_mem_cons] at hcounts
    refine List.forall_mem_append.2 ⟨hcounts.1, List.forall_mem_cons.2 ⟨?_, hcounts.2.2⟩⟩
    rw [Entry.record, hcounts.2.1, List.length_append]
    rfl
  · have hbefore := h.not_covers hentries fun j hj =>
      (hlen.trans (Option.some.inj (hi.symm.trans hj))).le
    have hcovers : e.candidate.covers o = true := by
      rw [Candidate.covers_eq, beq_iff_eq]
      exact hlabel.symm
    simp only [toChart, hentries, List.map_append, List.map_cons]
    rw [Chart.tally_append hbefore, Chart.tally, if_pos hcovers]
    rfl

/-- The occurrence begins an entry at the next position. -/
theorem add?_of_none (h : chart.Indexed) (hnone : chart.index[o.label]? = none) :
    ∃ after, chart.add? o p = some after ∧ after.Indexed ∧
      after.toChart = ⟨Chart.tally o p 0 chart.toChart.candidates⟩ := by
  have hslot : chart.index.getD o.label chart.entries.length = chart.entries.length := by
    rw [Std.HashMap.getD_eq_getD_getElem?, hnone, Option.getD_none]
  have hmem : o.label ∉ chart.index := by
    rw [Std.HashMap.mem_iff_isSome_getElem?, hnone]
    exact Bool.false_ne_true
  have hlen : chart.labels.length = chart.entries.length := List.length_map _
  let first : Entry := ⟨o.values, o.pattern, 1, [o.span], p.fire, p.wild, chart.entries.length⟩
  refine ⟨⟨chart.entries ++ [first],
    chart.index.insertIfNew o.label chart.entries.length⟩, ?_, ⟨?_, ?_⟩, ?_⟩
  · simp only [add?, hslot, if_pos, List.getElem?_concat_length, Option.map_some]
    rw [List.set_append_right _ _ Nat.le.refl, Nat.sub_self]
    rfl
  · intro label j
    have hlabels : labels ⟨chart.entries ++ [first],
        chart.index.insertIfNew o.label chart.entries.length⟩ = chart.labels ++ [o.label] :=
      List.map_append
    rw [Std.HashMap.getElem?_insertIfNew, hlabels, getElem?_concat_eq_some_iff, ← h.index, hlen]
    by_cases heq : o.label = label
    · subst heq
      rw [if_pos ⟨beq_self_eq_true _, hmem⟩, hnone, Option.some.injEq, eq_comm, or_iff_right nofun,
        and_iff_left rfl]
    · rw [if_neg fun hand => heq (beq_iff_eq.1 hand.1), or_iff_left fun hand => heq hand.2]
  · refine List.forall_mem_append.2 ⟨h.counts, ?_⟩
    rw [List.forall_mem_singleton]
    rfl
  · have hbefore := h.not_covers (List.append_nil _).symm fun j hj => by
      rw [hnone] at hj
      cases hj
    have htally := @Chart.tally_append o p _ hbefore 0 []
    rw [List.append_nil] at htally
    simp only [toChart, List.map_append, htally, Chart.tally, List.length_map, Nat.zero_add]
    rfl

theorem add? (h : chart.Indexed) (o : Occurrence) (p : Pattern) :
    ∃ after, chart.add? o p = some after ∧ after.Indexed ∧
      after.toChart = ⟨Chart.tally o p 0 chart.toChart.candidates⟩ := by
  cases hslot : chart.index[o.label]? with
  | some i => exact h.add?_of_some hslot
  | none => exact h.add?_of_none hslot

theorem foldlM {patterns : List Pattern} : ∀ {os : List Occurrence} {chart : IndexedChart},
    chart.Indexed → ∃ after : IndexedChart,
      os.foldlM (count? patterns) chart = some after ∧
        after.Indexed ∧ after.toChart = os.foldl (Chart.add patterns) chart.toChart
  | [], chart, h => ⟨chart, rfl, h, rfl⟩
  | o :: os, chart, h => by
    rw [List.foldlM_cons, List.foldl_cons, Chart.add]
    unfold IndexedChart.count?
    cases patterns[o.patternIndex]? with
    | none => exact foldlM h
    | some p =>
      obtain ⟨next, hnext, hindexed, hchart⟩ := h.add? o p
      simp only [hnext, ← hchart]
      exact foldlM hindexed

end Indexed

theorem exists_ofOccurrences? (patterns : List Pattern) (os : List Occurrence) :
    ∃ chart, ofOccurrences? patterns os = some chart ∧ chart.Indexed ∧
      chart.toChart = Chart.ofOccurrences patterns os :=
  Indexed.foldlM Indexed.empty

/-! ## Looking up counts -/

theorem isOf_iff {values : List String} {pattern : String} {e : Entry} :
    e.isOf values pattern = true ↔ e.label = (values, pattern) := by
  have hvalues : ∀ vs ws : List String,
      (vs.length == ws.length && (vs.zip ws).all fun (v, w) => v == w) = true ↔ vs = ws := by
    intro vs
    induction vs with
    | nil => intro ws; cases ws <;> simp
    | cons v vs ih =>
      intro ws
      cases ws with
      | nil => simp
      | cons w ws => simp [← ih, and_left_comm]
  rw [Entry.isOf, Bool.and_assoc, Bool.and_eq_true, beq_iff_eq, hvalues, Entry.label, Prod.mk.injEq,
    and_comm]

variable {chart : IndexedChart}

theorem Indexed.countOf_eq (h : chart.Indexed) (values : List String) (pattern : String) :
    chart.countOf values pattern = chart.toChart.countOf values pattern := by
  have hfind : chart.toChart.candidates.find?
      (fun c => c.pattern == pattern && c.values == values) =
        (chart.entries.find? (Entry.isOf values pattern)).map Entry.candidate := by
    rw [toChart, List.find?_map]
    refine congrArg (Option.map Entry.candidate) (congrArg (chart.entries.find? ·) ?_)
    funext e
    rw [Bool.eq_iff_iff, isOf_iff]
    simp [Entry.candidate, Entry.label, and_comm]
  rw [countOf, Chart.countOf, hfind]
  cases he : chart.entries.find? (Entry.isOf values pattern) with
  | none => rfl
  | some e => exact h.counts e (List.mem_of_find?_eq_some he)

/-- The index leads to the entry that going through the entries finds. -/
theorem Indexed.countAt_eq (h : chart.Indexed) (values : List String) (pattern : String) :
    chart.countAt values pattern = chart.countOf values pattern := by
  rw [countAt, countOf]
  cases hfind : chart.entries.find? (Entry.isOf values pattern) with
  | none =>
    have hnone : chart.index[(values, pattern)]? = none := by
      refine Option.eq_none_iff_forall_ne_some.2 fun i hi => ?_
      obtain ⟨e, he, hlabel⟩ : ∃ e, chart.entries[i]? = some e ∧ e.label = (values, pattern) := by
        simpa [labels] using (h.index _ i).1 hi
      exact List.find?_eq_none.1 hfind e (List.mem_of_getElem? he) (isOf_iff.2 hlabel)
    rw [hnone]
    rfl
  | some e =>
    obtain ⟨i, hi⟩ := List.mem_iff_getElem?.1 (List.mem_of_find?_eq_some hfind)
    have hindex : chart.index[(values, pattern)]? = some i := by
      rw [h.index, labels, List.getElem?_map, hi, ← isOf_iff.1 (List.find?_some hfind)]
      rfl
    rw [hindex]
    show (match chart.entries[i]? with | some e => e.count | none => 0) = e.count
    rw [hi]

/-- The chart of occurrences can always be made. Its index is a bijection from the labels of the
entries to their positions. There is one entry for each label of the occurrences whose pattern there
is, in the order of the first ones. An entry is numbered by its position, its count is the number of
occurrences of its label, it has their spans in order and the thresholds of the pattern of the
first. The counts add up, and looking one up, by the index or without it, gives the number of
occurrences for every label. -/
theorem ofOccurrences_partition (patterns : List Pattern) (os : List Occurrence) :
    let known := os.filter (·.patternIndex < patterns.length)
    ∃ chart : IndexedChart, ofOccurrences? patterns os = some chart ∧
      chart.toChart = Chart.ofOccurrences patterns os ∧
      (∀ (label : List String × String) (i : Nat),
        chart.index[label]? = some i ↔ chart.labels[i]? = some label) ∧
      chart.labels = (known.map Occurrence.label).eraseDups ∧
      (∀ n (e : Entry), chart.entries[n]? = some e → e.discovery = n ∧
        e.count = (known.map Occurrence.label).count e.label ∧ e.count = e.spans.length ∧
        e.spans = (known.filter (·.label == e.label)).map Occurrence.span ∧
        ∃ o p, known.find? (·.label == e.label) = some o ∧ patterns[o.patternIndex]? = some p ∧
          e.fire = p.fire ∧ e.wild = p.wild) ∧
      (chart.entries.map Entry.count).sum = known.length ∧
      ∀ values pattern,
        chart.countOf values pattern = (known.map Occurrence.label).count (values, pattern) ∧
          chart.countAt values pattern = chart.countOf values pattern := by
  obtain ⟨chart, hchart, h, hsame⟩ := exists_ofOccurrences? patterns os
  have hgroups := Chart.groups_ofOccurrences patterns os
  rw [← hsame] at hgroups
  have hlabels : chart.labels = chart.toChart.candidates.map Candidate.label := by
    rw [labels, toChart, List.map_map]
    rfl
  have hcounts : chart.entries.map Entry.count = chart.toChart.candidates.map Candidate.count := by
    rw [toChart, List.map_map]
    exact List.map_congr_left h.counts
  refine ⟨chart, hchart, hsame, h.index, hlabels.trans hgroups.labels, fun n e he => ?_, ?_,
    fun values pattern => ⟨?_, h.countAt_eq values pattern⟩⟩
  · have hcand : chart.toChart.candidates[n]? = some e.candidate := by
      rw [toChart, List.getElem?_map, he]
      rfl
    have hgroup := hgroups.groups n _ hcand
    have hcount := h.counts e (List.mem_of_getElem? he)
    exact ⟨hgroup.discovery, hcount.trans (hgroups.count_eq (List.mem_of_getElem? hcand)), hcount,
      hgroup.spans, hgroup.first⟩
  · rw [hcounts, hgroups.sum_counts]
    rfl
  · rw [h.countOf_eq, hgroups.countOf_eq]
    rfl

end IndexedChart

end GrammarInduction
