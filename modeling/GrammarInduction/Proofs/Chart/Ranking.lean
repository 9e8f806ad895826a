import GrammarInduction.Chart.Queue
import GrammarInduction.Proofs.Chart.Aggregation

/-!
# Rankings are stable sorts

A ranking sorts the candidates that reach a threshold by descending count and keeps the order of
their discovery at equal counts (`StableSort`, `stableSort_mergeSort`). A priority queue gives them
by descending priority (`PriorityQueue.drain_spec`). Candidates are numbered by their positions, so
priorities tell them apart and leave one order only (`Chart.eq_of_prioritized`), and any lawful queue
leads to the stable sort (`Chart.rank_ofOccurrences`).
-/

namespace GrammarInduction

/-! ## Stable sorts -/

section
variable {α : Type} {key : α → Nat} {l sorted : List α}

/-- The list is sorted by descending keys, and elements of one key stay in order. -/
structure StableSort (key : α → Nat) (l sorted : List α) : Prop where
  perm : sorted.Perm l
  descending : sorted.Pairwise fun a b => key b ≤ key a
  stable : ∀ n, sorted.filter (key · = n) = l.filter (key · = n)

theorem stableSort_mergeSort (key : α → Nat) (l : List α) :
    StableSort key l (l.mergeSort fun a b => key b ≤ key a) := by
  have htrans : ∀ a b c : α, decide (key b ≤ key a) → decide (key c ≤ key b) →
      decide (key c ≤ key a) := by simp only [decide_eq_true_eq]; omega
  have htotal : ∀ a b : α, decide (key b ≤ key a) || decide (key a ≤ key b) := by
    simp only [Bool.or_eq_true, decide_eq_true_eq]; omega
  have hperm := List.mergeSort_perm l fun a b => key b ≤ key a
  refine ⟨hperm, by simpa using List.pairwise_mergeSort htrans htotal l, fun n => ?_⟩
  -- elements of one key are in order as they stand, so sorting keeps them as a sublist
  have hone : (l.filter (key · = n)).Pairwise fun a b => decide (key b ≤ key a) :=
    List.pairwise_of_forall_mem_list fun a ha b hb => by simp_all
  have hsub := (List.sublist_mergeSort htrans htotal hone List.filter_sublist).filter (key · = n)
  simp only [List.filter_filter, Bool.and_self] at hsub
  exact (hsub.eq_of_length (hperm.filter _).length_eq.symm).symm

/-- A stable sort breaks ties by any order that the list was in. -/
theorem StableSort.pairwise_tie {R : α → α → Prop} (h : StableSort key l sorted)
    (hl : l.Pairwise R) :
    sorted.Pairwise fun a b => key b < key a ∨ key a = key b ∧ R a b := by
  rw [List.pairwise_iff_forall_sublist]
  intro a b hab
  have hle : key b ≤ key a := List.pairwise_iff_forall_sublist.1 h.descending hab
  rcases Nat.lt_or_eq_of_le hle with hlt | heq
  · exact .inl hlt
  · have hsub := hab.filter (key · = key a)
    rw [h.stable, List.filter_eq_self.2 (by simp [heq])] at hsub
    exact .inr ⟨heq.symm, List.pairwise_iff_forall_sublist.1 hl (hsub.trans List.filter_sublist)⟩

end

/-! ## Priority queues -/

namespace Priority

variable {p q r : Priority}

theorem le_iff : p ≤ q ↔ p.count < q.count ∨ p.count = q.count ∧ q.discovery ≤ p.discovery :=
  .rfl

theorem le_trans (hpq : p ≤ q) (hqr : q ≤ r) : p ≤ r := by
  rw [le_iff] at *
  omega

theorem le_refl (p : Priority) : p ≤ p := .inr ⟨rfl, Nat.le_refl _⟩

theorem le_total (p q : Priority) : p ≤ q ∨ q ≤ p := by
  rw [le_iff, le_iff]
  omega

end Priority

namespace PriorityQueue

variable {Q : PriorityQueue}

/-- Draining gives all entries by descending priority. -/
theorem drain_spec (h : Q.Lawful) (q : Q.Queue) :
    ∃ es : List (Nat × Priority), Q.drain h q = es.map Prod.fst ∧ es.Perm (Q.entries q) ∧
      es.Pairwise fun d e => e.2 ≤ d.2 := by
  fun_induction Q.drain h q with
  | case1 q hq => exact ⟨[], rfl, (h.entries_of_pop_none hq) ▸ .nil, .nil⟩
  | case2 q i p rest hq ih =>
    obtain ⟨es, hes, hperm, hsorted⟩ := ih
    have hentries := h.entries_of_pop hq
    refine ⟨(i, p) :: es, by rw [hes, List.map_cons], (hperm.cons _).trans hentries.symm, ?_⟩
    refine List.pairwise_cons.2 ⟨fun e he => ?_, hsorted⟩
    exact h.maximal_of_pop hq e (hentries.mem_iff.2 (.tail _ (hperm.mem_iff.1 he)))

/-! ### Lists as queues -/

/-- The entry of higher priority comes first. -/
def outranks (d e : Nat × Priority) : Bool := e.2 ≤ d.2

/-- A number that is pushed again gets its new priority, and popping sorts. -/
def ofLists : PriorityQueue where
  Queue := List (Nat × Priority)
  empty := []
  push q i p := (i, p) :: q.filter (·.1 ≠ i)
  pop q :=
    match q.mergeSort outranks with
    | [] => none
    | e :: rest => some (e, rest)
  entries q := q

theorem mergeSort_of_pop {q rest : ofLists.Queue} {e : Nat × Priority}
    (h : ofLists.pop q = some (e, rest)) : List.mergeSort q outranks = e :: rest := by
  simp only [ofLists] at h
  split at h <;> cases h
  assumption

theorem pairwise_mergeSort_outranks (q : List (Nat × Priority)) :
    (q.mergeSort outranks).Pairwise fun d e => e.2 ≤ d.2 := by
  have htrans : ∀ c d e, outranks c d → outranks d e → outranks c e := by
    simp only [outranks, decide_eq_true_eq]
    exact fun _ _ _ hcd hde => Priority.le_trans hde hcd
  have htotal : ∀ d e, outranks d e || outranks e d := by
    simp only [outranks, Bool.or_eq_true, decide_eq_true_eq]
    exact fun d e => Priority.le_total e.2 d.2
  simpa only [outranks, decide_eq_true_eq] using List.pairwise_mergeSort htrans htotal q

theorem lawful_ofLists : ofLists.Lawful where
  entries_empty := rfl
  entries_push {q i} p hi := by
    have hfilter : List.filter (fun e : Nat × Priority => e.1 ≠ i) q = q :=
      List.filter_eq_self.2 fun e he => by
        simpa using fun heq : e.1 = i => hi (heq ▸ List.mem_map_of_mem he)
    exact .of_eq (congrArg ((i, p) :: ·) hfilter)
  entries_of_pop_none {q} h := by
    simp only [ofLists] at h
    split at h <;> cases h
    exact List.nil_perm.1 (‹List.mergeSort q outranks = []› ▸ List.mergeSort_perm q outranks)
  entries_of_pop {q e rest} h :=
    mergeSort_of_pop h ▸ (List.mergeSort_perm (α := Nat × Priority) q outranks).symm
  maximal_of_pop {q e rest} h d hd := by
    have hsorted := pairwise_mergeSort_outranks q
    have hmem : d ∈ List.mergeSort q outranks := List.mem_mergeSort.2 hd
    rw [mergeSort_of_pop h] at hsorted hmem
    rcases List.mem_cons.1 hmem with rfl | hmem
    · exact Priority.le_refl _
    · exact List.rel_of_pairwise_cons hsorted hmem

end PriorityQueue

namespace Chart

variable {Q : PriorityQueue}

/-- What is pushed for a candidate at a position. -/
def entry (c : Candidate × Nat) : Nat × Priority := (c.2, c.1.priority)

/-- The entry has the position and the priority of the candidate. -/
structure EntryOf (chart : Chart) (e : Nat × Priority) (c : Candidate) : Prop where
  position : chart.candidates[e.1]? = some c
  priority : e.2 = c.priority

theorem entryOf_selected (chart : Chart) (selects : Candidate → Bool) :
    List.Forall₂ chart.EntryOf ((chart.candidates.zipIdx.filter (selects ·.1)).map entry)
      (chart.candidates.filter selects) := by
  conv => arg 3; rw [← List.zipIdx_map_fst 0 chart.candidates, List.filter_map]
  rw [List.forall₂_map_left_iff, List.forall₂_map_right_iff]
  exact List.forall₂_same.2 fun c hc =>
    ⟨List.mem_zipIdx_iff_getElem?.1 (List.mem_of_mem_filter hc), rfl⟩

/-- Pushing candidates from position `k` on adds those that are selected. -/
theorem entries_enqueue (h : Q.Lawful) (selects : Candidate → Bool) :
    ∀ {cs : List Candidate} {k : Nat} {q : Q.Queue}, (∀ e ∈ Q.entries q, e.1 < k) →
      (Q.entries ((cs.zipIdx k).foldl (enqueue Q selects) q)).Perm
        (((cs.zipIdx k).filter (selects ·.1)).map entry ++ Q.entries q)
  | [], _, _, _ => .rfl
  | c :: cs, k, q, hq => by
    rw [List.zipIdx_cons, List.foldl_cons, enqueue]
    split
    · rename_i hc
      have hnew : k ∉ (Q.entries q).map Prod.fst := fun hk => by
        obtain ⟨e, he, rfl⟩ := List.mem_map.1 hk
        exact Nat.lt_irrefl _ (hq e he)
      have hpush := h.entries_push c.priority hnew
      have hq' : ∀ e ∈ Q.entries (Q.push q k c.priority), e.1 < k + 1 := fun e he => by
        rcases List.mem_cons.1 (hpush.mem_iff.1 he) with rfl | he
        · exact Nat.lt_succ_self k
        · exact Nat.lt_succ_of_lt (hq e he)
      rw [List.filter_cons, if_pos hc, List.map_cons]
      exact (entries_enqueue h selects hq').trans ((hpush.append_left _).trans List.perm_middle)
    · rename_i hc
      rw [List.filter_cons, if_neg hc]
      exact entries_enqueue h selects fun e he => Nat.lt_succ_of_lt (hq e he)

/-! ## The order of candidates -/

variable {chart : Chart}

/-- Candidates are numbered by their positions. -/
def Numbered (chart : Chart) : Prop :=
  ∀ n (c : Candidate), chart.candidates[n]? = some c → c.discovery = n

theorem Numbered.pairwise (h : chart.Numbered) :
    chart.candidates.Pairwise fun c d => c.discovery < d.discovery := by
  rw [List.pairwise_iff_getElem]
  intro i j hi hj hij
  rwa [h i _ (List.getElem?_eq_getElem hi), h j _ (List.getElem?_eq_getElem hj)]

theorem Numbered.inj (h : chart.Numbered) {c d : Candidate} (hc : c ∈ chart.candidates)
    (hd : d ∈ chart.candidates) (heq : c.discovery = d.discovery) : c = d := by
  obtain ⟨n, hn⟩ := List.mem_iff_getElem?.1 hc
  obtain ⟨m, hm⟩ := List.mem_iff_getElem?.1 hd
  obtain rfl : n = m := (h n c hn).symm.trans (heq.trans (h m d hm))
  exact Option.some.inj (hn.symm.trans hm)

/-- By descending priority. -/
def Prioritized (cs : List Candidate) : Prop :=
  cs.Pairwise fun c d => d.priority ≤ c.priority

theorem prioritized_of_entries {es : List (Nat × Priority)} {cs : List Candidate}
    (h : List.Forall₂ chart.EntryOf es cs) (hes : es.Pairwise fun d e => e.2 ≤ d.2) :
    Prioritized cs := by
  have hprio : cs.map Candidate.priority = es.map Prod.snd := by
    rw [← List.forall₂_eq_eq_eq, List.forall₂_map_left_iff, List.forall₂_map_right_iff]
    exact h.flip.imp fun _ _ h => h.priority.symm
  have hpairs : (es.map Prod.snd).Pairwise fun p q => q ≤ p := List.pairwise_map.2 hes
  exact List.pairwise_map.1 (hprio ▸ hpairs)

/-- Candidates by descending priority are the stable sort by descending count. -/
theorem eq_of_prioritized (h : chart.Numbered) {selects : Candidate → Bool} {cs : List Candidate}
    (hperm : cs.Perm (chart.candidates.filter selects)) (hcs : Prioritized cs) :
    cs = (chart.candidates.filter selects).mergeSort Candidate.rankedBefore := by
  have hsort := stableSort_mergeSort Candidate.count (chart.candidates.filter selects)
  have hmem : ∀ c ∈ cs, c ∈ chart.candidates := fun c hc =>
    List.mem_of_mem_filter (hperm.mem_iff.1 hc)
  have hsorted : Prioritized _ :=
    (hsort.pairwise_tie (h.pairwise.filter selects)).imp fun hcd =>
      Priority.le_iff.2 (hcd.imp_right (.imp Eq.symm Nat.le_of_lt))
  refine List.Perm.eq_of_pairwise (fun c d hc hd hcd hdc => ?_) hcs hsorted
    (hperm.trans hsort.perm.symm)
  have hd' : d ∈ cs := hperm.mem_iff.2 (hsort.perm.mem_iff.1 hd)
  rw [Priority.le_iff] at hcd hdc
  exact h.inj (hmem c hc) (hmem d hd') (by simp only [Candidate.priority] at hcd hdc; omega)

/-! ## Ranking -/

/-- Draining a queue of selected candidates ranks them. -/
theorem mapM_drain (hQ : Q.Lawful) (h : chart.Numbered) (selects : Candidate → Bool) :
    (Q.drain hQ (chart.candidates.zipIdx.foldl (enqueue Q selects) Q.empty)).mapM
        (fun i => chart.candidates[i]?) =
      some ((chart.candidates.filter selects).mergeSort Candidate.rankedBefore) := by
  obtain ⟨es, hes, hperm, hsorted⟩ := PriorityQueue.drain_spec hQ
    (chart.candidates.zipIdx.foldl (enqueue Q selects) Q.empty)
  have hentries := hperm.trans (entries_enqueue hQ selects (by simp [hQ.entries_empty]))
  rw [hQ.entries_empty, List.append_nil] at hentries
  obtain ⟨cs, hcs, hfilter⟩ := List.perm_comp_forall₂ hentries (chart.entryOf_selected selects)
  rw [← eq_of_prioritized h hfilter (prioritized_of_entries hcs hsorted), hes]
  refine mapM_eq_some ?_
  rw [List.forall₂_map_left_iff]
  exact hcs.imp fun _ _ h => h.position

theorem rank?_eq (hQ : Q.Lawful) (h : chart.Numbered) :
    chart.rank? Q hQ = some ⟨chart.fireRanking, chart.wildRanking⟩ := by
  rw [rank?, foldl_prodMk]
  simp only [mapM_drain hQ h]
  rfl

theorem numbered_ofOccurrences (patterns : List Pattern) (os : List Occurrence) :
    (ofOccurrences patterns os).Numbered := fun n c hc =>
  ((groups_ofOccurrences patterns os).groups n c hc).discovery

/-- Each candidate whose count reaches its threshold once, by descending count and at equal counts in
the order of discovery. -/
structure Ranks (chart : Chart) (threshold : Candidate → Binary64) (cs : List Candidate) : Prop where
  nodup : cs.Nodup
  stableSort : StableSort Candidate.count
    (chart.candidates.filter fun c => (threshold c).le (.ofNat c.count)) cs

theorem Numbered.ranks (h : chart.Numbered) (threshold : Candidate → Binary64) :
    chart.Ranks threshold ((chart.candidates.filter fun c =>
      (threshold c).le (.ofNat c.count)).mergeSort Candidate.rankedBefore) := by
  have hsort := stableSort_mergeSort Candidate.count
    (chart.candidates.filter fun c => (threshold c).le (.ofNat c.count))
  have hnodup : chart.candidates.Nodup := h.pairwise.imp fun hlt heq =>
    Nat.ne_of_lt hlt (congrArg Candidate.discovery heq)
  exact ⟨hsort.perm.nodup_iff.2 (hnodup.filter _), hsort⟩

/-- Ranking the chart of some occurrences by any lawful priority queues succeeds and gives the stable
sorts of the candidates that reach their thresholds, as they are ranked in an iteration. -/
theorem rank_ofOccurrences (Q : PriorityQueue) (lawful : Q.Lawful) (patterns : List Pattern)
    (os : List Occurrence) :
    let chart := ofOccurrences patterns os
    ∃ ranking, chart.rank? Q lawful = some ranking ∧
      chart.Ranks Candidate.fire ranking.fire ∧ chart.Ranks Candidate.wild ranking.wild ∧
      ranking.fire = chart.fireRanking ∧ ranking.wild = chart.wildRanking := by
  have h := numbered_ofOccurrences patterns os
  exact ⟨_, rank?_eq lawful h, h.ranks Candidate.fire, h.ranks Candidate.wild, rfl, rfl⟩

/-- No count reaches the threshold for generalizing. -/
def pairPattern : Pattern := ⟨[.var "X", .var "Y"], .ofNat 1, .nan⟩

/-- The third of three pairs is seen twice. -/
def pairOccurrences : List Occurrence :=
  [⟨["a", "b"], "X Y", 0, ⟨0, 0, 1⟩, []⟩, ⟨["c", "d"], "X Y", 0, ⟨0, 2, 3⟩, []⟩,
    ⟨["e", "f"], "X Y", 0, ⟨1, 0, 1⟩, []⟩, ⟨["e", "f"], "X Y", 0, ⟨2, 0, 1⟩, []⟩]

theorem rank_pairOccurrences :
    let chart := ofOccurrences [pairPattern] pairOccurrences
    ∃ ranking, chart.rank? .ofLists PriorityQueue.lawful_ofLists = some ranking ∧
      ranking.fire.map Candidate.values = [["e", "f"], ["a", "b"], ["c", "d"]] ∧
      ranking.wild = [] := by
  obtain ⟨ranking, hrank, -, hwild, hfire, -⟩ :=
    rank_ofOccurrences .ofLists PriorityQueue.lawful_ofLists [pairPattern] pairOccurrences
  refine ⟨ranking, hrank, ?_, ?_⟩
  · have hperm : ([2, 0, 1].filterMap fun i =>
        (ofOccurrences [pairPattern] pairOccurrences).candidates[i]?).Perm
          ((ofOccurrences [pairPattern] pairOccurrences).candidates.filter Candidate.fires) := by
      decide +kernel
    have hsorted := eq_of_prioritized (numbered_ofOccurrences [pairPattern] pairOccurrences) hperm
      (by unfold Prioritized; decide +kernel)
    rw [hfire, fireRanking, ← hsorted]
    decide +kernel
  · exact List.perm_nil.1 (hwild.stableSort.perm.trans (.of_eq (by decide +kernel)))

end Chart

end GrammarInduction
