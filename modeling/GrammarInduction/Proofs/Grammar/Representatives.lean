import GrammarInduction.Proofs.Grammar.MergeOrder

/-!
# Names with several alternatives

A merge takes out one alternative of a name and turns every reference to that name into one to
another. The other alternatives of both names have to be the same then, sooner or later. Names are
given representatives (`Interchangeable`), under which names that may be merged have the same
alternatives, and twins are merged into those of the representative.

Three facts hold after every merge (`Remains`): a name that is referred to has an alternative for
each one it had; no rule has gone but for an equal one before it; and a name with different
alternatives is written as itself or as its representative. For the last one the rules of a round
are compared as they stand when the round begins (`Remains.tied`): if the first of them were not of
the representative, then an equal one would stand before it.

A merge keeps all three (`Remains.dissolve`), so does a round, and deduplication as a whole leaves
rules that stand for all there were (`mergeTwins_remains`).
-/

namespace GrammarInduction

/-! ## Representatives -/

/-- `v` is one of two values, or their representative where they differ, unless this is `loose`. -/
def Between (σ : String → String) (loose : String → Prop) (v : String) (x : String × String) :
    Prop :=
  v = x.1 ∨ v = x.2 ∨ x.1 ≠ x.2 ∧ ¬ loose (σ x.1) ∧ v = σ x.1

/-- The names of rules other than the start name have representatives among themselves, written by
`σ`. Rules with the same values up to these are of names with one representative, and such names
have the same alternatives. Of any two of their rules the first is of the representative, or else
comes after a rule between them; only the names with a `loose` representative may be merged in any
order, as they have one alternative. -/
structure Interchangeable (start : String) (rules : List Rule) (σ : String → String)
    (loose : String → Prop) : Prop where
  fixed : ∀ v, ¬ OtherName start rules v → σ v = v
  target : ∀ v, σ v ≠ v → OtherName start rules (σ v)
  idem : ∀ v, σ (σ v) = σ v
  congruent : Congruent start rules σ
  alternatives : ∀ r ∈ rules, ∀ q ∈ rules, q.lhs ≠ start → σ q.lhs = σ r.lhs →
    ∃ p ∈ rules, p.lhs = q.lhs ∧ p.values.map σ = r.values.map σ
  uniform : ∀ r ∈ rules, ∀ q ∈ rules, r.lhs ≠ start → loose (σ r.lhs) → σ q.lhs = σ r.lhs →
    q.values.map σ = r.values.map σ
  first : ∀ r ∈ rules, ∀ t ∈ rules, rules.idxOf r < rules.idxOf t → r.lhs ≠ start →
    t.lhs ≠ start → r.lhs ≠ t.lhs → r.values.map σ = t.values.map σ → ¬ loose (σ r.lhs) →
    σ r.lhs = r.lhs ∨ ∃ p ∈ rules, rules.idxOf p < rules.idxOf r ∧ p.lhs ≠ start ∧
      List.Forall₂ (Between σ loose) p.values (r.values.zip t.values)

namespace Interchangeable

variable {start : String} {rules : List Rule} {σ : String → String} {loose : String → Prop}

/-- Strings with one representative have the same alternatives, if any. -/
theorem exists_alternative (h : Interchangeable start rules σ loose) {r : Rule} (hr : r ∈ rules)
    {v : String} (hv : σ v = σ r.lhs) :
    ∃ p ∈ rules, p.lhs = v ∧ p.values.map σ = r.values.map σ := by
  by_cases hname : OtherName start rules v
  · obtain ⟨q, hq, hne, rfl⟩ := hname
    exact h.alternatives r hr q hq hne hv
  · rw [h.fixed v hname] at hv
    have hself : σ r.lhs = r.lhs := by
      by_contra hne
      exact hname (hv ▸ h.target r.lhs hne)
    exact ⟨r, hr, (hv.trans hself).symm, rfl⟩

end Interchangeable

/-! ## What merging leaves -/

/-- `rest` is what merging has left of `rules` under the substitution `s`. -/
structure Remains (start : String) (rules : List Rule) (σ : String → String)
    (loose : String → Prop) (s : String → String) (rest : List Rule) : Prop where
  survive : Survive start rules s rest
  absorbs : ∀ v, σ (s v) = σ v
  covers : ∀ v, ∀ r ∈ rules, σ v = σ r.lhs →
    ∃ q ∈ rest, q.lhs = s v ∧ q.values.map σ = r.values.map σ
  ahead : ∀ r ∈ rules, ∃ q ∈ rules, rules.idxOf q ≤ rules.idxOf r ∧ q.mapValues s ∈ rest ∧
    (q.lhs = start ↔ r.lhs = start) ∧ q.values.map s = r.values.map s
  tight : ∀ v, ¬ loose (σ v) → s v = v ∨ s v = σ v

namespace Remains

variable {start : String} {rules rest : List Rule} {σ s : String → String} {loose : String → Prop}

theorem refl (h : Interchangeable start rules σ loose) : Remains start rules σ loose id rules where
  survive := .refl start rules
  absorbs := fun _ => rfl
  covers := fun _ _ hr hv => h.exists_alternative hr hv
  ahead := fun r hr => ⟨r, hr, Nat.le_refl _, r.mapValues_id.symm ▸ hr, Iff.rfl, rfl⟩
  tight := fun _ _ => .inl rfl

/-- A value between two that are written the same is written as they are. -/
theorem between (h : Remains start rules σ loose s rest) (hi : Interchangeable start rules σ loose)
    {v : String} {x : String × String} (hv : Between σ loose v x) (hx : s x.1 = s x.2) :
    s v = s x.1 := by
  obtain rfl | rfl | ⟨hne, hloose, rfl⟩ := hv
  · rfl
  · exact hx.symm
  · have hσ : σ x.1 = σ x.2 := by rw [← h.absorbs x.1, hx, h.absorbs x.2]
    have hrep : s (σ x.1) = σ x.1 := by
      rcases h.tight (σ x.1) (by rwa [hi.idem]) with hs | hs
      · exact hs
      · rwa [hi.idem] at hs
    rw [hrep]
    rcases h.tight x.1 hloose with h₁ | h₁
    · rcases h.tight x.2 (hσ ▸ hloose) with h₂ | h₂
      · exact absurd (h₁.symm.trans (hx.trans h₂)) hne
      · rw [hx, h₂, hσ]
    · exact h₁.symm

theorem map_eq_of_between (h : Remains start rules σ loose s rest)
    (hi : Interchangeable start rules σ loose) : ∀ {ps rs ts : List String},
    List.Forall₂ (Between σ loose) ps (rs.zip ts) → rs.map s = ts.map s → ps.map s = rs.map s
  | _, [], _, hp, _ => by
    rw [List.zip_nil_left] at hp
    cases hp
    rfl
  | _, a :: rs, [], _, hrt => by cases hrt
  | _, a :: rs, b :: ts, hp, hrt => by
    rw [List.zip_cons_cons] at hp
    rw [List.map_cons, List.map_cons, List.cons.injEq] at hrt
    obtain _ | ⟨hv, hps⟩ := hp
    rw [List.map_cons, List.map_cons, h.between hi hv hrt.1, h.map_eq_of_between hi hps hrt.2]

/-! ### Single merges -/

theorem eq_of_mapValues (hid : (rules.map Rule.id).Nodup) {r q : Rule} (hr : r ∈ rules)
    (hq : q ∈ rules) (h : r.mapValues s = q.mapValues s) : r = q := by
  have hi := congrArg Rule.id h
  exact eq_of_id hid hr hq hi

section
variable {r t : Rule} (h : Remains start rules σ loose s rest)
  (hi : Interchangeable start rules σ loose) (hid : (rules.map Rule.id).Nodup)
  (m : Mergeable start rest (r.mapValues s) (t.mapValues s))
include h hi hid m

omit hid in
theorem names_eq : σ r.lhs = σ t.lhs :=
  hi.congruent.twins (r := r.mapValues s) (t := t.mapValues s) h.survive h.absorbs m

/-- The rules that stay have an alternative for each one there was. -/
theorem exists_stay (hr : r ∈ rules)
    (hrep : r.lhs ≠ t.lhs → ¬ loose (σ r.lhs) → σ r.lhs = r.lhs) {v : String} {p : Rule}
    (hp : p ∈ rules) (hv : σ v = σ p.lhs) :
    ∃ q ∈ rest, q.id ≠ t.id ∧ q.lhs = renamed t.lhs r.lhs (s v) ∧
      q.values.map σ = p.values.map σ := by
  obtain ⟨q, hq, hql, hqv⟩ := h.covers v p hp hv
  have hgone : ∀ q ∈ rest, q.id = t.id → q = t.mapValues s := fun q hq hqi =>
    eq_of_id (h.survive.nodup_ids hid) hq m.mem' hqi
  have hother : ∀ q ∈ rest, q.lhs ≠ t.lhs → q.id ≠ t.id := fun q hq hne hqi =>
    hne (by rw [hgone q hq hqi, Rule.mapValues_lhs])
  by_cases hs : s v = t.lhs
  · have hσ : σ r.lhs = σ p.lhs := by rw [h.names_eq hi m, ← hs, h.absorbs, hv]
    rw [hs, renamed_old]
    by_cases hne : r.lhs = t.lhs
    · by_cases hqi : q.id = t.id
      · -- `r` has the values of the rule that goes
        rw [hgone q hq hqi] at hqv
        exact ⟨_, m.mem, m.ids, rfl, by rw [m.values, hqv]⟩
      · exact ⟨q, hq, hqi, by rw [hql, hs, hne], hqv⟩
    · by_cases hloose : loose (σ r.lhs)
      · -- the names of this representative have one alternative
        have hstart : r.lhs ≠ start := fun hs => hne (hs.trans (m.kind.1 hs).symm)
        refine ⟨_, m.mem, m.ids, rfl, ?_⟩
        rw [Rule.mapValues_values, List.map_map, show σ ∘ s = σ from funext h.absorbs]
        exact (hi.uniform r hr p hp hstart hloose hσ.symm).symm
      · -- nothing was ever written for the representative
        have hself : s r.lhs = r.lhs :=
          (h.tight r.lhs hloose).elim id fun hs => hs.trans (hrep hne hloose)
        obtain ⟨q, hq, hql, hqv⟩ := h.covers r.lhs p hp hσ
        rw [hself] at hql
        exact ⟨q, hq, hother q hq (hql ▸ hne), hql, hqv⟩
  · exact ⟨q, hq, hother q hq (hql ▸ hs), by rw [hql, renamed_of_ne _ hs], hqv⟩

omit hi in
theorem ahead_dissolve (hr : r ∈ rules) (ht : t ∈ rules)
    (hlt : rules.idxOf r < rules.idxOf t) {p : Rule} (hp : p ∈ rules) :
    ∃ q ∈ rules, rules.idxOf q ≤ rules.idxOf p ∧
      q.mapValues (renamed t.lhs r.lhs ∘ s) ∈ GrammarInduction.dissolve r.lhs (t.mapValues s) rest ∧
      (q.lhs = start ↔ p.lhs = start) ∧
      q.values.map (renamed t.lhs r.lhs ∘ s) = p.values.map (renamed t.lhs r.lhs ∘ s) := by
  suffices hstay : ∃ q ∈ rules, rules.idxOf q ≤ rules.idxOf p ∧ q.mapValues s ∈ rest ∧
      q.id ≠ t.id ∧ (q.lhs = start ↔ p.lhs = start) ∧ q.values.map s = p.values.map s by
    obtain ⟨q, hq, hle, hrest, hqi, hkind, hv⟩ := hstay
    refine ⟨q, hq, hle, mem_dissolve.2 ⟨_, hrest, hqi, ?_⟩, hkind, ?_⟩
    · rw [Rule.rename_eq_mapValues, Rule.mapValues_mapValues, Rule.mapValues_lhs]
    · rw [← List.map_map, hv, List.map_map]
  obtain ⟨q, hq, hle, hrest, hkind, hv⟩ := h.ahead p hp
  by_cases hqi : q.id = t.id
  · obtain rfl := eq_of_id hid hq ht hqi
    have hvalues := m.values
    rw [Rule.mapValues_values, Rule.mapValues_values] at hvalues
    exact ⟨r, hr, hlt.le.trans hle, m.mem, m.ids, m.kind.trans hkind, hvalues.trans hv⟩
  · exact ⟨q, hq, hle, hrest, hqi, hkind, hv⟩

omit hid in
theorem tight_dissolve (hrep : r.lhs ≠ t.lhs → ¬ loose (σ r.lhs) → σ r.lhs = r.lhs) {v : String}
    (hv : ¬ loose (σ v)) :
    renamed t.lhs r.lhs (s v) = v ∨ renamed t.lhs r.lhs (s v) = σ v := by
  by_cases hs : s v = t.lhs
  · have hσ : σ v = σ r.lhs := by rw [h.names_eq hi m, ← hs, h.absorbs]
    rw [hs, renamed_old]
    by_cases hne : r.lhs = t.lhs
    · rw [hne, ← hs]
      exact h.tight v hv
    · exact .inr ((hrep hne (hσ ▸ hv)).symm.trans hσ.symm)
  · rw [renamed_of_ne _ hs]
    exact h.tight v hv

/-- A merge into the representative, of a name with one alternative, or of two rules of one name. -/
theorem dissolve (hr : r ∈ rules) (ht : t ∈ rules) (hlt : rules.idxOf r < rules.idxOf t)
    (hrep : r.lhs ≠ t.lhs → ¬ loose (σ r.lhs) → σ r.lhs = r.lhs) :
    Remains start rules σ loose (renamed t.lhs r.lhs ∘ s)
      (dissolve r.lhs (t.mapValues s) rest) where
  survive := h.survive.dissolve (r := r.mapValues s) (t := t.mapValues s) m
  absorbs := fun v => (renamed_congr (h.names_eq hi m) (s v)).trans (h.absorbs v)
  covers := by
    intro v p hp hv
    obtain ⟨q, hq, hqi, hql, hqv⟩ := h.exists_stay hi hid m hr hrep hp hv
    refine ⟨_, mem_dissolve.2 ⟨q, hq, hqi, rfl⟩, hql, ?_⟩
    rw [Rule.rename_values, List.map_map, ← hqv]
    exact List.map_congr_left fun v _ => renamed_congr (h.names_eq hi m) v
  ahead := fun p hp => h.ahead_dissolve hid m hr ht hlt hp
  tight := fun v hv => h.tight_dissolve hi m hrep hv

end

/-! ### Rounds -/

/-- The rule that a round keeps stands before those that it takes out, and it is of the
representative. -/
theorem tied (h : Remains start rules σ loose s rest) (hi : Interchangeable start rules σ loose)
    (hid : (rules.map Rule.id).Nodup) (hs : Separable start rest) {r t : Rule}
    {others : List Rule} (hfirst : firstTwins start rest = some (r.mapValues s, others))
    (hr : r ∈ rules) (ht : t ∈ rules) (hto : t.mapValues s ∈ others) :
    rules.idxOf r < rules.idxOf t ∧ (r.lhs ≠ t.lhs → ¬ loose (σ r.lhs) → σ r.lhs = r.lhs) := by
  obtain ⟨hsub, htwins⟩ := firstTwins_eq_some hfirst
  have hbefore : ∀ q ∈ rules, q.mapValues s ∈ others → rules.idxOf r < rules.idxOf q := by
    intro q hq hqo
    obtain ⟨l, hl, heq⟩ := List.sublist_map_iff.1 (hsub.trans h.survive.sublist)
    obtain ⟨r', l, rfl, hr', rfl⟩ := List.map_eq_cons_iff.1 heq.symm
    obtain ⟨q', hq', hqq⟩ := List.mem_map.1 hqo
    have hpair := (pairwise_idxOf (.of_map Rule.id hid)).sublist hl
    obtain rfl := eq_of_mapValues hid (hl.subset List.mem_cons_self) hr hr'
    obtain rfl := eq_of_mapValues hid (hl.subset (.tail _ hq')) hq hqq
    exact List.rel_of_pairwise_cons hpair hq'
  refine ⟨hbefore t ht hto, fun hne hloose => ?_⟩
  have hrest := hsub.subset List.mem_cons_self
  obtain ⟨hkind, hvalues⟩ := (hs.twins_iff hrest (hsub.subset (.tail _ hto))).1 (htwins _ hto)
  rw [Rule.mapValues_lhs, Rule.mapValues_lhs] at hkind
  rw [Rule.mapValues_values, Rule.mapValues_values] at hvalues
  have hrs : r.lhs ≠ start := fun hrs => hne (hrs.trans (hkind.1 hrs).symm)
  have hσ : r.values.map σ = t.values.map σ := by
    have hcomp : σ ∘ s = σ := funext h.absorbs
    rw [← hcomp, ← List.map_map, hvalues, List.map_map]
  obtain hself | ⟨p, hp, hpr, hps, hpv⟩ :=
    hi.first r hr t ht (hbefore t ht hto) hrs (mt hkind.2 hrs) hne hσ hloose
  · exact hself
  · -- what is left for `p` reads as `r` does and stands before it
    obtain ⟨q, hq, hqp, hqrest, hqs, hqv⟩ := h.ahead p hp
    have htw : (r.mapValues s).twins start (q.mapValues s) = true := by
      rw [hs.twins_iff hrest hqrest, Rule.mapValues_values, Rule.mapValues_values, hqv,
        h.map_eq_of_between hi hpv hvalues]
      exact ⟨iff_of_false hrs (mt hqs.1 hps), rfl⟩
    rcases eq_or_mem_of_twins hfirst _ hqrest htw with heq | hmem
    · obtain rfl := eq_of_mapValues hid hq hr heq
      omega
    · have := hbefore q hq hmem
      omega

/-- What a round leaves stands for all rules if what it began with did. -/
theorem round (h : Remains start rules σ loose s rest) (hi : Interchangeable start rules σ loose)
    (hid : (rules.map Rule.id).Nodup) (hs : Separable start rest) {r : Rule} {others : List Rule}
    (hfirst : firstTwins start rest = some (r, others)) :
    ∃ s', Remains start rules σ loose s' (others.foldl (absorb r.lhs) (0, rest)).2 := by
  obtain ⟨hrest, hot, hab⟩ := absorbable_firstTwins (h.survive.nodup_ids hid) hs hfirst
  obtain ⟨r, hr, rfl⟩ := h.survive.exists_of_mem hrest
  refine foldl_absorb_induct (P := fun rest' => ∃ s', Remains start rules σ loose s' rest') others 0
    ?_ (h.survive.nodup_ids hid) hrest rfl hot hab ⟨s, h⟩
  rintro rest' r' t' ⟨s', h'⟩ m hri hti
  obtain ⟨r', hr', rfl⟩ := h'.survive.exists_of_mem m.mem
  obtain ⟨t, ht, rfl⟩ := h'.survive.exists_of_mem m.mem'
  obtain rfl := eq_of_id hid hr' hr hri
  have hto : t.mapValues s ∈ others := by
    obtain ⟨u, hu, hui⟩ := List.mem_map.1 hti
    have hsub := (firstTwins_eq_some hfirst).1
    obtain ⟨t', ht', rfl⟩ := h.survive.exists_of_mem (hsub.subset (.tail _ hu))
    obtain rfl := eq_of_id hid ht' ht hui
    exact hu
  obtain ⟨hlt, hrep⟩ := h.tied hi hid hs hfirst hr ht hto
  have hstep := h'.dissolve hi hid m hr ht hlt hrep
  exact ⟨_, hstep⟩

end Remains

theorem mergeTwins_remains {start : String} {rules : List Rule} {σ : String → String}
    {loose : String → Prop} (hi : Interchangeable start rules σ loose)
    (hid : (rules.map Rule.id).Nodup) (hs : Separable start rules) :
    ∃ s, Remains start rules σ loose s (mergeTwins start rules).2 :=
  mergeTwins_rounds (P := fun rest => ∃ s, Remains start rules σ loose s rest) hid hs
    (fun _ hs ⟨_, h⟩ hfirst => h.round hi hid hs hfirst) ⟨id, .refl hi⟩

end GrammarInduction
