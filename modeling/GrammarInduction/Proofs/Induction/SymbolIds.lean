import GrammarInduction.Proofs.Induction.WellFormed
import Mathlib.Data.List.Flatten

/-!
# Symbol ids are handed out in advance

`Grammar.PastSymbols`: the supply has gone past the ids of all symbols in the rules. A promotion
uses an id no more often than before, or once if it hands the id out (`count_symbolIds_promote`),
and deduplication keeps the ids of what stays (`symbolIds_mergeTwins`), so that induction keeps the
property (`PastSymbols.promote`, `PastSymbols.deduplicate`), beside the invariant and the start name
(`Engine.step_pastSymbols`).
-/

namespace GrammarInduction

/-- The supply has gone past the ids of all symbols. -/
def Grammar.PastSymbols (g : Grammar) : Prop :=
  ∀ r ∈ g.rules, ∀ x ∈ r.rhs, x.id < g.supply.nextSymbol

/-- The ids of the symbols on the right-hand side. -/
def Rule.symbolIds (r : Rule) : List Nat := r.rhs.map Symbol.id

theorem Rule.symbolIds_mapValues (s : String → String) (r : Rule) :
    (r.mapValues s).symbolIds = r.symbolIds := by
  rw [symbolIds, mapValues, List.map_map]
  rfl

theorem Grammar.pastSymbols_iff {g : Grammar} :
    g.PastSymbols ↔ ∀ i ∈ g.rules.flatMap Rule.symbolIds, i < g.supply.nextSymbol := by
  simp only [PastSymbols, List.forall_mem_flatMap, Rule.symbolIds, List.forall_mem_map]

/-! ## Loading -/

theorem Supply.issue_lt {s : Supply} {shapes : List (String × Bool)} {x : Symbol}
    (h : x ∈ (s.issue shapes).1) : x.id < (s.issue shapes).2.nextSymbol := by
  have hm := List.mem_map_of_mem (f := Symbol.id) h
  rw [s.issue_ids, List.mem_range'_1] at hm
  exact hm.2

namespace Grammar.PastSymbols

variable {g : Grammar}

theorem addSentence (h : g.PastSymbols) (ws : List String) : (g.addSentence ws).PastSymbols := by
  intro r hr x hx
  rcases List.mem_append.1 hr with hr | hr
  · exact Nat.lt_add_right _ (h r hr x hx)
  · rw [List.mem_singleton.1 hr] at hx
    exact Supply.issue_lt hx

theorem ofCorpus (text start : String) : (Grammar.ofCorpus text start).PastSymbols := by
  apply List.foldlRecOn
  · intro r hr
    cases hr
  · intro g h ws _
    exact h.addSentence ws

end Grammar.PastSymbols

/-! ## Promotions -/

theorem count_range'_append (a m n i : Nat) :
    (List.range' a m).count i + (List.range' (a + m) n).count i =
      (List.range' a (m + n)).count i := by
  rw [← List.count_append, List.range'_append_1]

theorem nextSymbol_mint (s : Supply) (body : List Symbol) :
    (s.mint body).2.nextSymbol = s.nextSymbol + (body.length + 1) := by
  show s.nextSymbol + (body.map fun x => (x.value, x.terminal)).length + 1 = _
  rw [List.length_map, Nat.add_assoc]

/-- A new rule and the reference to it have the next symbol ids. -/
theorem symbolIds_mint (s : Supply) (body : List Symbol) :
    (s.mint body).1.1.symbolIds ++ [(s.mint body).1.2.id] =
      List.range' s.nextSymbol (body.length + 1) := by
  have hids := s.takeName.2.issue_ids (body.map fun x => (x.value, x.terminal))
  rw [List.length_map] at hids
  rw [List.range'_1_concat]
  refine congr (congrArg _ hids) (congrArg ([·]) ?_)
  show s.nextSymbol + (body.map fun x => (x.value, x.terminal)).length = _
  rw [List.length_map]

/-- What is hit is copied under new ids and goes, so that no symbol id is used more often than
before, or once if it has been handed out. -/
theorem count_symbolIds_assemble : ∀ (segs : List Segment) (s : Supply), ∃ k,
    (s.assemble segs).2.nextSymbol = s.nextSymbol + k ∧ ∀ i,
      ((s.assemble segs).1.1.map Symbol.id).count i +
          ((s.assemble segs).1.2.flatMap Rule.symbolIds).count i ≤
        ((segs.flatMap Segment.symbols).map Symbol.id).count i +
          (List.range' s.nextSymbol k).count i
  | [], _ => ⟨0, rfl, fun _ => Nat.le_refl _⟩
  | .kept x :: segs, s => by
    obtain ⟨k, hk, hcount⟩ := count_symbolIds_assemble segs s
    refine ⟨k, hk, fun i => ?_⟩
    have hi := hcount i
    simp only [assemble_kept, List.map_cons, List.flatMap_cons, Segment.symbols,
      List.singleton_append, List.count_cons]
    omega
  | .hit body :: segs, s => by
    obtain ⟨k, hk, hcount⟩ := count_symbolIds_assemble segs (s.mint body).2
    have hnext := nextSymbol_mint s body
    refine ⟨body.length + 1 + k, ?_, fun i => ?_⟩
    · rw [← Nat.add_assoc, ← hnext]
      exact hk
    · have hi := hcount i
      have hmint := congrArg (List.count i) (symbolIds_mint s body)
      rw [hnext] at hi
      rw [← count_range'_append]
      simp only [assemble_hit, List.map_cons, List.flatMap_cons, Segment.symbols, List.map_append,
        List.count_append, List.count_cons, List.count_nil] at hi hmint ⊢
      omega

theorem count_symbolIds_rewrite {start : String} {target : List String} : ∀ (rules : List Rule)
    (s : Supply), ∃ k, (s.rewrite start target rules).2.nextSymbol = s.nextSymbol + k ∧ ∀ i,
      let w := (s.rewrite start target rules).1
      ((w.1 ++ w.2).flatMap Rule.symbolIds).count i ≤
        (rules.flatMap Rule.symbolIds).count i + (List.range' s.nextSymbol k).count i
  | [], _ => ⟨0, rfl, fun _ => Nat.le_refl _⟩
  | r :: rest, s => by
    obtain ⟨k, hk, hcount⟩ := count_symbolIds_assemble (r.segments start target) s
    obtain ⟨m, hm, hcount'⟩ := @count_symbolIds_rewrite start target rest
      (s.assemble (r.segments start target)).2
    refine ⟨k + m, ?_, fun i => ?_⟩
    · rw [rewrite_cons, ← Nat.add_assoc, ← hk]
      exact hm
    · have hr := hcount i
      have hrest := hcount' i
      rw [flatMap_segments] at hr
      rw [hk] at hrest
      rw [← count_range'_append]
      simp only [rewrite_cons, List.flatMap_cons, List.flatMap_append, List.count_append,
        Rule.symbolIds] at hr hrest ⊢
      omega

/-- A promotion hands out symbol ids, and each of them is used once at most. -/
theorem count_symbolIds_promote {g g' : Grammar} (hid : (g.rules.map Rule.id).Nodup)
    {target : List String} {n : Nat} (hp : g.promote target = .ok (n, g')) :
    ∃ k, g'.supply.nextSymbol = g.supply.nextSymbol + k ∧ ∀ i,
      (g'.rules.flatMap Rule.symbolIds).count i ≤
        (g.rules.flatMap Rule.symbolIds).count i + (List.range' g.supply.nextSymbol k).count i := by
  rw [promote_eq hid, Except.ok.injEq, Prod.mk.injEq] at hp
  obtain ⟨-, rfl⟩ := hp
  exact count_symbolIds_rewrite g.rules g.supply

/-- Deduplication keeps the ids of the symbols that stay, in order. -/
theorem symbolIds_mergeTwins (start : String) (rules : List Rule) :
    ((mergeTwins start rules).2.flatMap Rule.symbolIds).Sublist
      (rules.flatMap Rule.symbolIds) := by
  obtain ⟨s, h⟩ := mergeTwins_survive start rules
  have hsub := h.sublist.flatMap Rule.symbolIds
  rwa [List.flatMap_map, funext (Rule.symbolIds_mapValues s)] at hsub

namespace Grammar.PastSymbols

variable {g g' : Grammar}

theorem promote (h : g.PastSymbols) (hid : (g.rules.map Rule.id).Nodup) {target : List String}
    {n : Nat} (hp : g.promote target = .ok (n, g')) : g'.PastSymbols := by
  obtain ⟨k, hk, hcount⟩ := count_symbolIds_promote hid hp
  rw [pastSymbols_iff] at h ⊢
  intro i hi
  rw [hk]
  have hpos := Nat.lt_of_lt_of_le (List.count_pos_iff.2 hi) (hcount i)
  rcases Nat.add_pos_iff_pos_or_pos.1 hpos with hpos | hpos
  · exact Nat.lt_add_right k (h i (List.count_pos_iff.1 hpos))
  · exact (List.mem_range'_1.1 (List.count_pos_iff.1 hpos)).2

theorem deduplicate (h : g.PastSymbols) :
    PastSymbols { g with rules := (mergeTwins g.start g.rules).2 } := by
  rw [pastSymbols_iff] at h ⊢
  exact fun i hi => h i ((symbolIds_mergeTwins g.start g.rules).subset hi)

end Grammar.PastSymbols

/-! ## Iterations -/

/-- An iteration keeps the start name, the invariant and symbol ids below the next one. -/
theorem Engine.step_pastSymbols {e : Engine} (h : e.grammar.Inv) (hsym : e.grammar.PastSymbols) :
    ∃ changed e', e.step = .ok (changed, e') ∧ e'.patterns = e.patterns ∧
      e'.grammar.start = e.grammar.start ∧ e'.grammar.Inv ∧ e'.grammar.PastSymbols := by
  obtain ⟨n, g, hall, hstart, hinv, hsym⟩ := @promoteAll_chain
    (fun _ g => g.start = e.grammar.start ∧ g.Inv ∧ g.PastSymbols) e.fired [] e.grammar
    (fun c _ _ g ⟨hstart, hinv, hsym⟩ => by
      obtain ⟨g', old, new, hp, hpr⟩ := promote_spec hinv.ids c.values
      exact ⟨new.length, g', hp, hpr.start.trans hstart, hinv.promote hpr,
        hsym.promote hinv.ids hp⟩) ⟨rfl, h, hsym⟩
  obtain ⟨e', hs, he', hpat, -⟩ := step_eq hall
  refine ⟨_, e', hs, hpat, ?_⟩
  rw [he']
  exact ⟨hstart, deduplicate_keeps (fun h => h) (fun h hm => h.merge hm) hinv, hsym.deduplicate⟩

end GrammarInduction
