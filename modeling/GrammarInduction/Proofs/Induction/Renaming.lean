import GrammarInduction.Proofs.Chart.Renaming
import GrammarInduction.Proofs.Grammar.Structure
import GrammarInduction.Proofs.Induction.WellFormed

/-!
# Induction under a renaming

Two engines mirror each other (`Engine.Mirrors`) if the grammar of one is that of the other under a
renaming that also takes the names and ids still to be handed out by the one to those of the other.
Cutting, assembling, promoting, matching and merging commute with the renaming, each by a lemma of
its own, so that engines that mirror each other report the same results for any number of
iterations and mirror each other afterwards (`Engine.Mirrors.trace`).
-/

namespace GrammarInduction

variable {ρ : Renaming}

/-! ## Supplies -/

/-- What `s` hands out next becomes what `s'` hands out next. -/
structure Supply.Shifts (ρ : Renaming) (s s' : Supply) : Prop where
  name : ∀ i, ρ.name (inducedName (s.nextName + i)) = inducedName (s'.nextName + i)
  value : ∀ i, ρ.value (inducedName (s.nextName + i)) = inducedName (s'.nextName + i)
  rule : ∀ i, ρ.rule (s.nextRule + i) = s'.nextRule + i
  symbol : ∀ i, ρ.symbol (s.nextSymbol + i) = s'.nextSymbol + i

namespace Supply.Shifts

variable {s s' : Supply} (h : Shifts ρ s s')
include h

theorem advance (a b c : Nat) : Shifts ρ ⟨s.nextSymbol + a, s.nextRule + b, s.nextName + c⟩
    ⟨s'.nextSymbol + a, s'.nextRule + b, s'.nextName + c⟩ where
  name := fun i => by simpa only [Nat.add_assoc] using h.name (c + i)
  value := fun i => by simpa only [Nat.add_assoc] using h.value (c + i)
  rule := fun i => by simpa only [Nat.add_assoc] using h.rule (b + i)
  symbol := fun i => by simpa only [Nat.add_assoc] using h.symbol (a + i)

/-- Symbols of renamed values take the ids that the symbols of the values become. -/
theorem issue_under (shapes : List (String × Bool)) :
    (s'.issue (shapes.map fun x => (ρ.value x.1, x.2))).1 =
      (s.issue shapes).1.map (Symbol.under ρ) := by
  refine List.ext_getElem (by simp [issue]) fun i _ _ => ?_
  simp [issue, Symbol.under, h.symbol]

theorem relabel_under (body : List Symbol) :
    (s'.relabel (body.map (Symbol.under ρ))).1 = (s.relabel body).1.map (Symbol.under ρ) := by
  have hissue := h.issue_under (body.map fun x => (x.value, x.terminal))
  rw [List.map_map] at hissue
  rw [relabel, relabel, List.map_map]
  exact hissue

theorem mint_under (body : List Symbol) :
    (s'.mint (body.map (Symbol.under ρ))).1 =
        ((s.mint body).1.1.under ρ, (s.mint body).1.2.under ρ) ∧
      Shifts ρ (s.mint body).2 (s'.mint (body.map (Symbol.under ρ))).2 := by
  have hname : Shifts ρ s.takeName.2 s'.takeName.2 := h.advance 0 0 1
  have hlen : (body.map (Symbol.under ρ)).length = body.length := List.length_map ..
  constructor
  · have hbody := hname.relabel_under body
    have hn := h.name 0
    have hv := h.value 0
    have hr := h.rule 0
    have hs := h.symbol body.length
    simp only [Nat.add_zero] at hn hv hr
    simp only [mint, takeName, relabel, takeRule, takeSymbol, issue, Rule.under, Symbol.under,
      List.length_map, hn, hv, hr, hs, Prod.mk.injEq, Rule.mk.injEq, true_and, and_true] at hbody ⊢
    exact hbody
  · have hall := h.advance (body.length + 1) 1 1
    simpa only [mint, takeName, relabel, takeRule, takeSymbol, issue, List.length_map,
      Nat.add_assoc] using hall

end Supply.Shifts

/-! ## Segments -/

/-- The segment under a renaming. -/
def Segment.under (ρ : Renaming) : Segment → Segment
  | kept s => kept (s.under ρ)
  | hit body => hit (body.map (Symbol.under ρ))

section
variable {target : List String} (ht : ∀ v ∈ target, v ∈ ρ.values)
include ht

theorem cutAfter_under (skip : Nat) {rhs : List Symbol} (hr : ∀ s ∈ rhs, s.value ∈ ρ.values) :
    cutAfter (target.map ρ.value) skip (rhs.map (Symbol.under ρ)) =
      (cutAfter target skip rhs).map (Segment.under ρ) := by
  have hfront : ∀ {xs : List Symbol}, (∀ s ∈ xs, s.value ∈ ρ.values) →
      ((target.map ρ.value ≠ [] ∧ ((xs.map (Symbol.under ρ)).take
        (target.map ρ.value).length).map Symbol.value = target.map ρ.value) ↔
      target ≠ [] ∧ (xs.take target.length).map Symbol.value = target) := by
    intro xs hxs
    rw [List.length_map, ← List.map_take, map_value_under, ne_eq, List.map_eq_nil_iff]
    refine and_congr_right' (map_eq_map_iff_of_injOn ρ.value_inj (fun v hv => ?_) ht)
    obtain ⟨s, hs, rfl⟩ := List.mem_map.1 hv
    exact hxs s (List.mem_of_mem_take hs)
  fun_induction cutAfter target skip rhs with
  | case1 skip => rw [List.map_nil, cutAfter, List.map_nil]
  | case2 skip s rest ih => exact ih fun x hx => hr x (.tail _ hx)
  | case3 s rest front hf ih =>
    have ih := ih fun x hx => hr x (.tail _ hx)
    have hf' := (hfront hr).2 hf
    rw [List.map_cons] at hf' ⊢
    rw [cutAfter, if_pos hf', List.map_cons, Segment.under, List.length_map, ih, ← List.map_cons,
      ← List.map_take]
  | case4 s rest front hf ih =>
    have ih := ih fun x hx => hr x (.tail _ hx)
    have hf' := mt (hfront hr).1 hf
    rw [List.map_cons] at hf' ⊢
    rw [cutAfter, if_neg hf', List.map_cons, Segment.under, ih]

theorem Renaming.Covers.segments_under {start : String} {rules : List Rule} (hs : ρ.Fixes start)
    (h : ρ.Covers start rules) {r : Rule} (hr : r ∈ rules) :
    (r.under ρ).segments start (target.map ρ.value) =
      (r.segments start target).map (Segment.under ρ) := by
  have hvalues : ∀ s ∈ r.rhs, s.value ∈ ρ.values := fun s hs =>
    h.values r hr _ (List.mem_map_of_mem hs)
  have hcut : (r.under ρ).isCut start (target.map ρ.value) = r.isCut start target := by
    rw [Bool.eq_iff_iff, isCut_iff, isCut_iff, Rule.under_rhs, List.length_map, List.length_map,
      Rule.under_lhs, (h.names r hr).name_eq_start_iff hs]
  rw [Rule.segments, Rule.segments, hcut]
  split
  · exact cutAfter_under ht 0 hvalues
  · rw [Rule.under_rhs, List.map_map, List.map_map]
    rfl

end

theorem Supply.Shifts.assemble_under : ∀ (segs : List Segment) {s s' : Supply}, Shifts ρ s s' →
    (s'.assemble (segs.map (Segment.under ρ))).1 =
        ((s.assemble segs).1.1.map (Symbol.under ρ), (s.assemble segs).1.2.map (Rule.under ρ)) ∧
      Shifts ρ (s.assemble segs).2 (s'.assemble (segs.map (Segment.under ρ))).2
  | [], _, _, h => ⟨rfl, h⟩
  | .kept x :: segs, s, s', h => by
    obtain ⟨hval, hsup⟩ := h.assemble_under segs
    rw [List.map_cons, Segment.under, assemble_kept, assemble_kept]
    exact ⟨by simp [hval], hsup⟩
  | .hit body :: segs, s, s', h => by
    obtain ⟨hmint, hsup⟩ := h.mint_under body
    obtain ⟨hval, hsup⟩ := hsup.assemble_under segs
    rw [List.map_cons, Segment.under, assemble_hit, assemble_hit]
    exact ⟨by simp [hmint, hval], hsup⟩

/-! ## Promotions -/

theorem Supply.Shifts.rewrite_under {start : String} {target : List String}
    (hs : ρ.Fixes start) (ht : ∀ v ∈ target, v ∈ ρ.values) : ∀ {rules : List Rule},
    ρ.Covers start rules → ∀ {s s' : Supply}, Shifts ρ s s' →
    (s'.rewrite start (target.map ρ.value) (rules.map (Rule.under ρ))).1 =
        ((s.rewrite start target rules).1.1.map (Rule.under ρ),
          (s.rewrite start target rules).1.2.map (Rule.under ρ)) ∧
      Shifts ρ (s.rewrite start target rules).2
        (s'.rewrite start (target.map ρ.value) (rules.map (Rule.under ρ))).2
  | [], _, _, _, h => ⟨rfl, h⟩
  | r :: rest, hc, s, s', h => by
    have hseg := hc.segments_under ht hs List.mem_cons_self
    obtain ⟨hval, hsup⟩ := h.assemble_under (r.segments start target)
    obtain ⟨hrest, hsup⟩ := rewrite_under hs ht (hc.mono fun q hq => .tail _ hq) hsup
    rw [List.map_cons, rewrite_cons, rewrite_cons, hseg]
    refine ⟨?_, hsup⟩
    simp only [hval, hrest, List.map_cons, List.map_append]
    rfl

namespace Grammar

/-- The names and ids of the grammar lie in the domain, and so does whatever it hands out. -/
structure Covered (ρ : Renaming) (g : Grammar) : Prop where
  fixes : ρ.Fixes g.start
  covers : ρ.Covers g.start g.rules
  ids : (g.rules.map Rule.id).Nodup
  ids_lt : ∀ r ∈ g.rules, r.id < g.supply.nextRule
  nextNames : ∀ n, g.supply.nextName ≤ n → inducedName n ∈ ρ.values
  nextRules : ∀ n, g.supply.nextRule ≤ n → n ∈ ρ.rules

/-- The grammar under a renaming. -/
structure Image (ρ : Renaming) (g h : Grammar) : Prop where
  start : h.start = g.start
  rules : h.rules = g.rules.map (Rule.under ρ)
  supply : g.supply.Shifts ρ h.supply

/-- An induced name on a right-hand side has a rule. -/
theorem Inv.exists_rule {g : Grammar} (h : g.Inv) {r : Rule} (hr : r ∈ g.rules) {v : String}
    (hv : v ∈ r.values) (hm : marked v = true) : ∃ q ∈ g.rules, q.lhs ≠ g.start ∧ q.lhs = v := by
  obtain ⟨s, hs, rfl⟩ := List.mem_map.1 hv
  have ht := h.kinds r hr s hs
  rw [hm] at ht
  obtain ⟨q, hq, hl⟩ := h.defined r hr s hs ht
  exact ⟨q, hq, (h.marked_iff hq).1 (hl ▸ hm), hl⟩

/-- What a grammar with the invariant has yet to meet. -/
theorem Inv.covered {g : Grammar} (h : g.Inv) (hstart : ρ.name g.start = g.start)
    (hvalues : ∀ r ∈ g.rules, ∀ v ∈ r.values, marked v = false → v ∈ ρ.values)
    (hnames : ∀ r ∈ g.rules, r.lhs ≠ g.start → r.lhs ∈ ρ.values)
    (hids : ∀ r ∈ g.rules, r.id ∈ ρ.rules)
    (hnextNames : ∀ n, g.supply.nextName ≤ n → inducedName n ∈ ρ.values)
    (hnextRules : ∀ n, g.supply.nextRule ≤ n → n ∈ ρ.rules) : g.Covered ρ := by
  refine ⟨⟨hstart, h.start⟩, ⟨fun r hr v hv => ?_, fun r hr => ?_, hids, h.rhs_ne⟩, h.ids, h.ids_lt,
    hnextNames, hnextRules⟩
  · cases hm : marked v with
    | false => exact hvalues r hr v hv hm
    | true =>
      obtain ⟨q, hq, hs, rfl⟩ := h.exists_rule hr hv hm
      exact hnames q hq hs
  · by_cases hs : r.lhs = g.start
    · exact .inl hs
    · exact .inr ⟨hnames r hr hs, (h.marked_iff hr).2 hs⟩

theorem Covered.promote {target : List String} {g g' : Grammar} {old new : List Rule}
    (h : g.Covered ρ) (hp : Promotes target g g' old new) : g'.Covered ρ := by
  have hnew : ∀ q ∈ new, q.lhs ∈ ρ.values ∧ marked q.lhs = true := by
    intro q hq
    obtain ⟨n, hn, -, he⟩ := hp.name_of_new hq
    rw [he]
    exact ⟨h.nextNames n hn, marked_inducedName n⟩
  refine ⟨hp.start ▸ h.fixes, ⟨?_, ?_, ?_, hp.rhs_ne h.covers.rhs_ne⟩, hp.nodup_ids h.ids h.ids_lt,
    hp.ids_lt h.ids_lt, fun n hn => h.nextNames n ?_, fun n hn => h.nextRules n ?_⟩
  · intro r' hr' v hv
    obtain ⟨y, hy, rfl⟩ := List.mem_map.1 hv
    rcases hp.symbol_of_mem hr' hy with ⟨r, hr, z, hz, hv, -⟩ | ⟨-, q, hq, hl⟩
    · rw [← hv]
      exact h.covers.values r hr _ (List.mem_map_of_mem hz)
    · rw [← hl]
      exact (hnew q hq).1
  · intro r' hr'
    rcases hp.mem_rules.1 hr' with hr' | hr'
    · obtain ⟨r, hr, hb⟩ := hp.exists_source hr'
      rw [hb.lhs, hp.start]
      exact h.covers.names r hr
    · exact .inr (hnew r' hr')
  · intro r' hr'
    rcases hp.mem_rules.1 hr' with hr' | hr'
    · obtain ⟨r, hr, hb⟩ := hp.exists_source hr'
      rw [hb.id]
      exact h.covers.ids r hr
    · have hm := List.mem_map_of_mem (f := Rule.id) hr'
      rw [hp.ids, List.mem_range'_1] at hm
      exact h.nextRules _ hm.1
  · rw [hp.nextName] at hn
    omega
  · rw [hp.nextRule] at hn
    omega

/-- Promotion commutes with a renaming. -/
theorem Image.promote {target : List String} {g h : Grammar} (hc : g.Covered ρ)
    (hi : Image ρ g h) (ht : ∀ v ∈ target, v ∈ ρ.values) :
    ∃ n g' h', g.promote target = .ok (n, g') ∧ h.promote (target.map ρ.value) = .ok (n, h') ∧
      g'.start = g.start ∧ g'.Covered ρ ∧ Image ρ g' h' := by
  obtain ⟨g', old, new, hg, hspec⟩ := promote_spec hc.ids target
  have hid := hc.covers.nodup_ids hc.ids
  rw [← hi.rules] at hid
  obtain ⟨hval, hsup⟩ := hi.supply.rewrite_under hc.fixes ht hc.covers
  have hh := promote_eq hid (target.map ρ.value)
  have hg' := promote_eq hc.ids target
  rw [hg, Except.ok.injEq, Prod.mk.injEq] at hg'
  obtain ⟨hn, rfl⟩ := hg'
  simp only [hi.start, hi.rules, hval, List.length_map, ← hn] at hh
  exact ⟨_, _, _, hg, hh, rfl, hc.promote hspec, ⟨rfl, (List.map_append ..).symm, hsup⟩⟩

theorem Covered.deduplicate {g : Grammar} (h : g.Covered ρ) : g.deduplicate.2.Covered ρ := by
  have hcovers := (Renaming.mergeTwins_under h.fixes h.covers).2
  exact ⟨h.fixes, hcovers, h.ids.sublist (ids_mergeTwins g.start g.rules),
    ids_lt_mergeTwins h.ids_lt, h.nextNames, h.nextRules⟩

/-- So does deduplication. -/
theorem Image.deduplicate {g h : Grammar} (hc : g.Covered ρ) (hi : Image ρ g h) :
    h.deduplicate.1 = g.deduplicate.1 ∧ Image ρ g.deduplicate.2 h.deduplicate.2 := by
  obtain ⟨hmerge, -⟩ := Renaming.mergeTwins_under hc.fixes hc.covers
  have hm : mergeTwins h.start h.rules = ((mergeTwins g.start g.rules).1,
      (mergeTwins g.start g.rules).2.map (Rule.under ρ)) := by
    rw [hi.start, hi.rules, hmerge]
  have hrules : h.deduplicate.2.rules = (mergeTwins g.start g.rules).2.map (Rule.under ρ) :=
    congrArg Prod.snd hm
  have hcount : h.deduplicate.1 = (mergeTwins g.start g.rules).1 := congrArg Prod.fst hm
  exact ⟨hcount, hi.start, hrules, hi.supply⟩

theorem Image.sameStructure {g h g' h' : Grammar} (hstart : g'.start = g.start)
    (hc : g.Covered ρ) (hi : Image ρ g h) (hc' : g'.Covered ρ) (hi' : Image ρ g' h') :
    h'.sameStructure h = g'.sameStructure g := by
  rw [Bool.eq_iff_iff, sameStructure_iff_perm, sameStructure_iff_perm, hi.rules, hi'.rules]
  exact Renaming.perm_shapes_under hc.fixes (hstart ▸ hc'.covers) hc.covers

end Grammar

/-! ## Iterations -/

namespace Engine

/-- `d` is at the same point as `e`, under a renaming. -/
structure Mirrors (ρ : Renaming) (e d : Engine) : Prop where
  covered : e.grammar.Covered ρ
  image : Grammar.Image ρ e.grammar d.grammar
  patterns : d.patterns = e.patterns

variable {e d : Engine}

theorem Mirrors.values_of_mem_collect (h : Mirrors ρ e d) :
    ∀ o ∈ e.collect, ∀ v ∈ o.values, v ∈ ρ.values := by
  intro o ho v hv
  obtain ⟨r, hr, -, -, hinf, -⟩ := of_mem_collect ho
  exact h.covered.covers.values r hr v (hinf.subset hv)

theorem Mirrors.collect_under (h : Mirrors ρ e d) :
    d.collect = e.collect.map (Occurrence.under ρ) := by
  unfold collect
  rw [h.image.rules, h.patterns, List.flatMap_map, List.map_flatMap]
  refine List.flatMap_congr fun r hr => ?_
  rw [List.map_flatMap]
  refine List.flatMap_congr fun p _ => ?_
  exact p.1.occurrencesIn_under p.2 (h.covered.covers.values r hr)

theorem Mirrors.fired_under (h : Mirrors ρ e d) : d.fired = e.fired.map (Candidate.under ρ) := by
  rw [fired, fired, h.patterns, h.collect_under,
    Chart.ofOccurrences_under e.patterns h.values_of_mem_collect, Chart.fireRanking_under]

theorem promoteAll_under : ∀ {cs : List Candidate} {g h : Grammar},
    (∀ c ∈ cs, ∀ v ∈ c.values, v ∈ ρ.values) → g.Covered ρ → Grammar.Image ρ g h →
    ∃ n g' h', promoteAll g cs = .ok (n, g') ∧
      promoteAll h (cs.map (Candidate.under ρ)) = .ok (n, h') ∧
      g'.start = g.start ∧ g'.Covered ρ ∧ Grammar.Image ρ g' h'
  | [], g, h, _, hc, hi => ⟨0, g, h, rfl, rfl, rfl, hc, hi⟩
  | c :: cs, g, h, hcs, hc, hi => by
    obtain ⟨k, g₁, h₁, hg, hh, hs₁, hc₁, hi₁⟩ := hi.promote hc (hcs c List.mem_cons_self)
    obtain ⟨n, g', h', hgs, hhs, hs', hc', hi'⟩ :=
      promoteAll_under (fun c hc => hcs c (.tail _ hc)) hc₁ hi₁
    exact ⟨k + n, g', h', promoteAll_cons hg hgs, promoteAll_cons hh hhs, hs'.trans hs₁, hc', hi'⟩

/-- Engines that mirror each other report the same and mirror each other afterwards. -/
theorem Mirrors.step (h : Mirrors ρ e d) :
    ∃ changed e' d', e.step = .ok (changed, e') ∧ d.step = .ok (changed, d') ∧
      Mirrors ρ e' d' ∧ (d.stats = e.stats → d'.stats = e'.stats) := by
  have hcs : ∀ c ∈ e.fired, ∀ v ∈ c.values, v ∈ ρ.values := by
    intro c hc v hv
    obtain ⟨r, hr, -, -, hinf, -⟩ := of_mem_fired hc
    exact h.covered.covers.values r hr v (hinf.subset hv)
  obtain ⟨n, g, g', hg, hg', hs, hc, hi⟩ := promoteAll_under hcs h.covered h.image
  rw [← h.fired_under] at hg'
  obtain ⟨hmerged, hi'⟩ := hi.deduplicate hc
  have hstart : g.deduplicate.2.start = e.grammar.start := hs
  have hsame := Grammar.Image.sameStructure hstart h.covered h.image hc.deduplicate hi'
  have hd := step_eq_ok hg'
  rw [hsame] at hd
  refine ⟨_, _, _, step_eq_ok hg, hd, ⟨hc.deduplicate, hi', h.patterns⟩, fun hstats => ?_⟩
  simp only [hstats, hmerged, h.collect_under, h.fired_under, List.length_map]

/-- So they do for any number of iterations. -/
theorem Mirrors.trace : ∀ (k : Nat) {e d : Engine}, Mirrors ρ e d →
    ∃ results e' d', e.trace k = .ok (results, e') ∧ d.trace k = .ok (results, d') ∧
      Mirrors ρ e' d' ∧ (d.stats = e.stats → d'.stats = e'.stats)
  | 0, e, d, h => ⟨[], e, d, rfl, rfl, h, fun hs => hs⟩
  | k + 1, e, d, h => by
    obtain ⟨changed, e₁, d₁, he, hd, h₁, hs₁⟩ := h.step
    obtain ⟨results, e', d', he', hd', h', hs'⟩ := h₁.trace k
    exact ⟨changed :: results, e', d', trace_succ he he', trace_succ hd hd', h',
      fun hs => hs' (hs₁ hs)⟩

end Engine

end GrammarInduction
