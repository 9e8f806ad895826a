import GrammarInduction.Proofs.Grammar.MergeLanguage
import GrammarInduction.Proofs.Grammar.Structure
import Mathlib.Logic.Equiv.Basic

/-!
# Deduplication in another order

The order of the rules decides which name survives a merge and which twins are merged first. Where
every name but the start name has one rule, it decides nothing else. A sequence of single merges
writes names for names by a substitution under which the rules that are left are all rules there
were (`Merged.covers`), and which identifies no more names than any substitution must that
identifies the names of rules it makes read the same (`Congruent`, `Merged.least`). A single merge
keeps both (`Merged.dissolve`). When no twins are left the substitution is itself of this kind
(`Merged.congruent`), so that the substitutions of two orders identify the same names, and
exchanging the names that they keep takes one result to the other (`Grammar.deduplicate_perm`).
-/

namespace GrammarInduction

/-- No name but the start name has two rules. -/
def OneRule (start : String) (rules : List Rule) : Prop :=
  ∀ r ∈ rules, ∀ q ∈ rules, r.lhs = q.lhs → r.lhs ≠ start → r = q

theorem OneRule.agreed {start : String} {rules : List Rule} (h : OneRule start rules) :
    ∀ name ≠ start, Agreed rules name := by
  rintro _ hne r hr q hq rfl hql
  rw [h r hr q hq hql.symm hne]

/-! ## Single merges -/

/-- Nothing is written for the start name, and it is written for nothing. -/
theorem eq_start_iff_of_target {start : String} {rules : List Rule} {s : String → String}
    (hfixed : ∀ v, ¬ OtherName start rules v → s v = v)
    (htarget : ∀ v, s v ≠ v → OtherName start rules (s v)) (v : String) : s v = start ↔ v = start := by
  have hstart : ¬ OtherName start rules start := fun ⟨_, _, hne, hl⟩ => hne hl
  refine ⟨fun hv => ?_, fun hv => hv ▸ hfixed start hstart⟩
  by_contra hne
  exact hstart (hv ▸ htarget v fun he => hne (he.symm.trans hv))

namespace Survive

variable {start : String} {rules rest : List Rule} {s : String → String}

theorem nodup_ids (h : Survive start rules s rest) (hid : (rules.map Rule.id).Nodup) :
    (rest.map Rule.id).Nodup := by
  have hsub := h.sublist.map Rule.id
  rw [List.map_map] at hsub
  exact hid.sublist hsub

theorem eq_start_iff (h : Survive start rules s rest) (v : String) : s v = start ↔ v = start :=
  eq_start_iff_of_target h.fixed h.target v

theorem agreed (h : Survive start rules s rest) {name : String} (ha : Agreed rules name) :
    Agreed rest name := by
  intro r hr q hq hrl hql
  obtain ⟨r, hr', rfl⟩ := h.exists_of_mem hr
  obtain ⟨q, hq', rfl⟩ := h.exists_of_mem hq
  rw [Rule.mapValues_values, Rule.mapValues_values, ha r hr' q hq' hrl hql]

theorem dissolve (h : Survive start rules s rest) {r t : Rule} (m : Mergeable start rest r t) :
    Survive start rules (renamed t.lhs r.lhs ∘ s) (dissolve r.lhs t rest) := by
  have hsub : (GrammarInduction.dissolve r.lhs t rest).Sublist
      (rules.map (Rule.mapValues (renamed t.lhs r.lhs ∘ s))) := by
    rw [← Rule.map_mapValues_mapValues, ← Rule.rename_eq_mapValues]
    exact (List.filter_sublist.trans h.sublist).map _
  by_cases hne : r.lhs = start
  · have hself : renamed t.lhs r.lhs ∘ s = s := by
      rw [m.kind.1 hne, hne]
      exact funext fun v => renamed_self start (s v)
    rw [hself] at hsub ⊢
    exact ⟨hsub, h.fixed, h.target⟩
  · have hrename := h.rename (h.otherName ⟨t, m.mem', mt m.kind.2 hne, rfl⟩)
      (h.otherName ⟨r, m.mem, hne, rfl⟩)
    exact ⟨hsub, hrename.fixed, hrename.target⟩

end Survive

/-- Rules that read the same under `σ` are of names that do, the start name left aside. -/
def Congruent (start : String) (rules : List Rule) (σ : String → String) : Prop :=
  ∀ r ∈ rules, ∀ q ∈ rules, r.lhs ≠ start → q.lhs ≠ start →
    r.values.map σ = q.values.map σ → σ r.lhs = σ q.lhs

/-- Twins read the same under every congruence, so that it identifies their names already. -/
theorem Congruent.twins {start : String} {rules rest : List Rule} {s σ : String → String}
    (hσ : Congruent start rules σ) (h : Survive start rules s rest) (hs : ∀ v, σ (s v) = σ v)
    {r t : Rule} (m : Mergeable start rest r t) : σ r.lhs = σ t.lhs := by
  by_cases hne : r.lhs = start
  · rw [hne, m.kind.1 hne]
  · obtain ⟨r', hr', rfl⟩ := h.exists_of_mem m.mem
    obtain ⟨t', ht', rfl⟩ := h.exists_of_mem m.mem'
    refine hσ r' hr' t' ht' hne (mt m.kind.2 hne) ?_
    have hvalues : (r'.values.map s).map σ = (t'.values.map s).map σ := by
      rw [← Rule.mapValues_values, m.values, Rule.mapValues_values]
    rwa [List.map_map, List.map_map, show σ ∘ s = σ from funext hs] at hvalues

/-- `rest` is what merging has left of `rules` under the substitution `s`. -/
structure Merged (start : String) (rules : List Rule) (s : String → String) (rest : List Rule) :
    Prop where
  survive : Survive start rules s rest
  covers : ∀ r ∈ rules, ∃ q ∈ rest, q.lhs = s r.lhs ∧ q.values = r.values.map s
  least : ∀ σ, Congruent start rules σ → ∀ v, σ (s v) = σ v

namespace Merged

variable {start : String} {rules rest : List Rule} {s : String → String}

theorem refl (start : String) (rules : List Rule) : Merged start rules id rules where
  survive := .refl start rules
  covers := fun r hr => ⟨r, hr, rfl, (List.map_id _).symm⟩
  least := fun _ _ _ => rfl

/-- `r` stands for `t` from then on, and for all rules of the name of `t`. -/
theorem covers_dissolve (h : Merged start rules s rest) (hid : (rules.map Rule.id).Nodup)
    (ha : ∀ name ≠ start, Agreed rules name) {r t : Rule} (m : Mergeable start rest r t) :
    ∀ p ∈ rules, ∃ q ∈ dissolve r.lhs t rest, q.lhs = renamed t.lhs r.lhs (s p.lhs) ∧
      q.values = p.values.map (renamed t.lhs r.lhs ∘ s) := by
  intro p hp
  obtain ⟨q, hq, hlhs, hvalues⟩ := h.covers p hp
  suffices hstay : ∃ q' ∈ rest, q'.id ≠ t.id ∧ q'.lhs = renamed t.lhs r.lhs q.lhs ∧
      q'.values = q.values by
    obtain ⟨q', hq', hi, hl, hv⟩ := hstay
    refine ⟨_, mem_dissolve.2 ⟨q', hq', hi, rfl⟩, ?_, ?_⟩
    · rw [Rule.rename_lhs, hl, hlhs]
    · rw [Rule.rename_values, hv, hvalues, List.map_map]
  by_cases hqr : q.lhs = t.lhs ∧ q.values = r.values
  · exact ⟨r, m.mem, m.ids, by rw [hqr.1, renamed_old], hqr.2.symm⟩
  · refine ⟨q, hq, fun hi => ?_, ?_, rfl⟩
    · obtain rfl := eq_of_id (h.survive.nodup_ids hid) hq m.mem' hi
      exact hqr ⟨rfl, m.values.symm⟩
    · by_cases hl : q.lhs = t.lhs
      · -- a name with other values as well is the start name
        have hstart : t.lhs = start := by
          by_contra hne
          have hqt := h.survive.agreed (ha t.lhs hne) q hq t m.mem' hl rfl
          exact hqr ⟨hl, hqt.trans m.values.symm⟩
        rw [hl, renamed_old, hstart, m.kind.2 hstart]
      · rw [renamed_of_ne r.lhs hl]

theorem least_dissolve (h : Merged start rules s rest) {r t : Rule} (m : Mergeable start rest r t)
    {σ : String → String} (hσ : Congruent start rules σ) (v : String) :
    σ (renamed t.lhs r.lhs (s v)) = σ v := by
  rw [renamed_congr (hσ.twins h.survive (h.least σ hσ) m), h.least σ hσ]

theorem dissolve (h : Merged start rules s rest) (hid : (rules.map Rule.id).Nodup)
    (ha : ∀ name ≠ start, Agreed rules name) {r t : Rule} (m : Mergeable start rest r t) :
    Merged start rules (renamed t.lhs r.lhs ∘ s) (dissolve r.lhs t rest) where
  survive := h.survive.dissolve m
  covers := h.covers_dissolve hid ha m
  least := fun _ hσ => h.least_dissolve m hσ

end Merged

/-! ## What is left when there are no twins -/

/-- Rules of one kind with the same values are one rule. -/
def Twinless (start : String) (rules : List Rule) : Prop :=
  ∀ r ∈ rules, ∀ q ∈ rules, (r.lhs = start ↔ q.lhs = start) → r.values = q.values → r = q

namespace Merged

variable {start : String} {rules rest : List Rule} {s : String → String}

theorem congruent (h : Merged start rules s rest) (hno : Twinless start rest) :
    Congruent start rules s := by
  intro r hr q hq hrs hqs hv
  obtain ⟨r', hr', hrl, hrv⟩ := h.covers r hr
  obtain ⟨q', hq', hql, hqv⟩ := h.covers q hq
  have hkind : r'.lhs = start ↔ q'.lhs = start := by
    rw [hrl, hql, h.survive.eq_start_iff, h.survive.eq_start_iff]
    exact iff_of_false hrs hqs
  rw [← hrl, ← hql, hno r' hr' q' hq' hkind (hrv.trans (hv.trans hqv.symm))]

/-- The rules that are left are all rules there were, under the substitution. -/
theorem mem_shapes_iff (h : Merged start rules s rest) (hno : Twinless start rest)
    (x : String × List String) :
    x ∈ rest.map Rule.shape ↔ ∃ r ∈ rules, (s r.lhs, r.values.map s) = x := by
  constructor
  · intro hx
    obtain ⟨q, hq, rfl⟩ := List.mem_map.1 hx
    obtain ⟨r, hr, rfl⟩ := h.survive.exists_of_mem hq
    obtain ⟨q, hq', hl, hv⟩ := h.covers r hr
    have heq : q = r.mapValues s := by
      refine hno q hq' _ hq ?_ ?_
      · rw [hl, h.survive.eq_start_iff, Rule.mapValues_lhs]
      · rw [hv, Rule.mapValues_values]
    rw [← heq]
    exact ⟨r, hr, (Prod.ext hl hv).symm⟩
  · rintro ⟨r, hr, rfl⟩
    obtain ⟨q, hq, hl, hv⟩ := h.covers r hr
    exact List.mem_map.2 ⟨q, hq, Prod.ext hl hv⟩

theorem otherName_of_fixed (h : Merged start rules s rest) {v : String}
    (hv : OtherName start rules v) (hs : s v = v) : OtherName start rest v := by
  obtain ⟨r, hr, hne, rfl⟩ := hv
  obtain ⟨q, hq, hl, -⟩ := h.covers r hr
  exact ⟨q, hq, hl.trans hs ▸ hne, hl.trans hs⟩

end Merged

theorem Twinless.nodup_shapes {start : String} {rules : List Rule} (h : Twinless start rules)
    (hnd : rules.Nodup) : (rules.map Rule.shape).Nodup := by
  refine hnd.map_on fun r hr q hq hshape => ?_
  have hl : r.lhs = q.lhs := congrArg Prod.fst hshape
  exact h r hr q hq (by rw [hl]) (congrArg Prod.snd hshape)

/-! ## Two orders -/

/-- Exchanges what two substitutions write for the same. -/
def exchange (s s' : String → String) (v : String) : String :=
  if s v = v then s' v else if s' v = v then s v else v

theorem exchange_comm (s s' : String → String) : exchange s s' = exchange s' s := by
  funext v
  unfold exchange
  by_cases hs : s v = v <;> by_cases hs' : s' v = v <;> simp [hs, hs']

section
variable {s s' : String → String}

theorem exchange_apply (h : ∀ v, s (s' v) = s v) (h' : ∀ v, s' (s v) = s' v) (v : String) :
    exchange s s' (s v) = s' v := by
  have hs : s (s v) = s v := by rw [← h (s v), h', h]
  rw [exchange, if_pos hs, h']

theorem exchange_involutive (h : ∀ v, s (s' v) = s v) (h' : ∀ v, s' (s v) = s' v) :
    Function.Involutive (exchange s s') := by
  intro v
  by_cases hs : s v = v
  · rw [show exchange s s' v = s' v by rw [exchange, if_pos hs], exchange_comm,
      exchange_apply h' h, hs]
  · by_cases hs' : s' v = v
    · rw [show exchange s s' v = s v by rw [exchange, if_neg hs, if_pos hs'],
        exchange_apply h h', hs']
    · have hv : exchange s s' v = v := by rw [exchange, if_neg hs, if_neg hs']
      rw [hv, hv]

end

/-- The rule with its name and its values written by `σ`. -/
def Rule.mapNames (σ : String → String) (r : Rule) : Rule :=
  { r.mapValues σ with lhs := σ r.lhs }

theorem Rule.mapNames_shape (σ : String → String) (r : Rule) :
    (r.mapNames σ).shape = (σ r.lhs, r.values.map σ) :=
  congrArg (Prod.mk (σ r.lhs)) (r.mapValues_values σ)

section
variable {start : String} {rules rules' rest rest' : List Rule} {s s' : String → String}

theorem Separable.of_perm (hp : rules'.Perm rules) (h : Separable start rules) :
    Separable start rules' where
  rhs_ne := fun r hr => h.rhs_ne r (hp.mem_iff.1 hr)
  values := fun r hr => h.values r (hp.mem_iff.1 hr)
  names := fun r hr => h.names r (hp.mem_iff.1 hr)

theorem OneRule.of_perm (hp : rules'.Perm rules) (h : OneRule start rules) : OneRule start rules' :=
  fun r hr q hq => h r (hp.mem_iff.1 hr) q (hp.mem_iff.1 hq)

theorem Congruent.of_perm (hp : rules'.Perm rules) {σ : String → String}
    (h : Congruent start rules σ) : Congruent start rules' σ :=
  fun r hr q hq => h r (hp.mem_iff.1 hr) q (hp.mem_iff.1 hq)

theorem OtherName.of_perm (hp : rules'.Perm rules) {name : String}
    (h : OtherName start rules name) : OtherName start rules' name := by
  obtain ⟨r, hr, h⟩ := h
  exact ⟨r, hp.mem_iff.2 hr, h⟩

/-- Neither of two orders identifies names that the other does not. -/
theorem Merged.absorbs (h : Merged start rules s rest) (h' : Merged start rules' s' rest')
    (hno' : Twinless start rest') (hp : rules.Perm rules') (v : String) : s' (s v) = s' v :=
  h.least s' ((h'.congruent hno').of_perm hp) v

theorem Merged.otherName_of_exchange (h : Merged start rules s rest)
    (h' : Merged start rules' s' rest') (hp : rules.Perm rules') {v : String}
    (hv : exchange s s' v ≠ v) : OtherName start rest v ∨ OtherName start rest' v := by
  unfold exchange at hv
  split at hv
  · rename_i hs
    refine .inl (h.otherName_of_fixed ?_ hs)
    by_contra hname
    exact hv (h'.survive.fixed v fun hname' => hname (hname'.of_perm hp))
  · split at hv
    · rename_i hs hs'
      refine .inr (h'.otherName_of_fixed ?_ hs')
      by_contra hname
      exact hv (h.survive.fixed v fun hname' => hname (hname'.of_perm hp.symm))
    · exact absurd rfl hv

/-- Two orders leave the same rules, up to an exchange of names. -/
theorem Merged.shapes_perm (h : Merged start rules s rest) (h' : Merged start rules' s' rest')
    (hno : Twinless start rest) (hno' : Twinless start rest') (hnd : rest.Nodup)
    (hnd' : rest'.Nodup) (hp : rules.Perm rules') :
    ((rest.map (Rule.mapNames (exchange s s'))).map Rule.shape).Perm (rest'.map Rule.shape) := by
  have hs := h'.absorbs h hno hp.symm
  have hs' := h.absorbs h' hno' hp
  have hmap : (rest.map (Rule.mapNames (exchange s s'))).map Rule.shape =
      (rest.map Rule.shape).map (Prod.map (exchange s s') (List.map (exchange s s'))) := by
    rw [List.map_map, List.map_map]
    exact List.map_congr_left fun r _ => r.mapNames_shape _
  have hinj := (exchange_involutive hs hs').injective
  rw [hmap, List.perm_ext_iff_of_nodup
    ((hno.nodup_shapes hnd).map (hinj.prodMap (List.map_injective_iff.2 hinj)))
    (hno'.nodup_shapes hnd')]
  have hpair (r : Rule) : Prod.map (exchange s s') (List.map (exchange s s'))
      (s r.lhs, r.values.map s) = (s' r.lhs, r.values.map s') := by
    have hcomp : exchange s s' ∘ s = s' := funext (exchange_apply hs hs')
    rw [Prod.map_apply, List.map_map, hcomp, exchange_apply hs hs']
  intro x
  rw [h'.mem_shapes_iff hno', List.mem_map]
  constructor
  · rintro ⟨_, hy, rfl⟩
    obtain ⟨r, hr, rfl⟩ := (h.mem_shapes_iff hno _).1 hy
    exact ⟨r, hp.mem_iff.1 hr, (hpair r).symm⟩
  · rintro ⟨r, hr, rfl⟩
    exact ⟨_, (h.mem_shapes_iff hno _).2 ⟨r, hp.mem_iff.2 hr, rfl⟩, hpair r⟩

end

namespace Grammar

/-- What deduplication takes for granted: ids are distinct, no right-hand side is empty, no value
holds the separator of keys, and no string is both a token and a name. -/
structure Readable (g : Grammar) : Prop where
  ids : (g.rules.map Rule.id).Nodup
  rhs_ne : ∀ r ∈ g.rules, r.rhs ≠ []
  values : ∀ r ∈ g.rules, ∀ v ∈ r.values, '\x1f' ∉ v.toList
  names : ∀ r ∈ g.rules, ∀ s ∈ r.rhs, s.terminal = true → ∀ q ∈ g.rules,
    q.lhs ≠ s.value ∧ ∀ u ∈ q.rhs, u.terminal = false → u.value ≠ s.value

/-- The grammar with names and values written by `σ`. -/
def mapNames (σ : String → String) (g : Grammar) : Grammar :=
  { g with rules := g.rules.map (Rule.mapNames σ) }

/-- What is left of rules with distinct ids that keys tell apart, where no name but the start name
has rules with different values. -/
theorem deduplicate_merged {g : Grammar} (hid : (g.rules.map Rule.id).Nodup)
    (hs : Separable g.start g.rules) (ha : ∀ name ≠ g.start, Agreed g.rules name) :
    (∃ s, Merged g.start g.rules s g.deduplicate.2.rules) ∧
      Twinless g.start g.deduplicate.2.rules ∧ g.deduplicate.2.rules.Nodup := by
  obtain ⟨s, h⟩ : ∃ s, Merged g.start g.rules s g.deduplicate.2.rules :=
    mergeTwins_induct (P := fun rest => ∃ s, Merged g.start g.rules s rest) hid hs
      (fun ⟨_, h⟩ ⟨m⟩ => ⟨_, h.dissolve hid ha m⟩) ⟨id, .refl g.start g.rules⟩
  exact ⟨⟨s, h⟩, fun r hr q hq => eq_of_mem_mergeTwins hid hs hr hq,
    .of_map Rule.id (h.survive.nodup_ids hid)⟩

/-- Deduplication takes out as many rules in every order of the rules, and what it leaves is the
same but for the names of rules other than the start name. -/
theorem deduplicate_perm {g h : Grammar} (hid : (g.rules.map Rule.id).Nodup)
    (hs : Separable g.start g.rules) (hone : OneRule g.start g.rules) (hstart : h.start = g.start)
    (hp : h.rules.Perm g.rules) :
    h.deduplicate.1 = g.deduplicate.1 ∧ ∃ σ : Equiv.Perm String,
      (∀ v, σ v ≠ v → OtherName g.start g.deduplicate.2.rules v ∨
        OtherName g.start h.deduplicate.2.rules v) ∧
      (g.deduplicate.2.mapNames σ).sameStructure h.deduplicate.2 = true := by
  obtain ⟨⟨s, hm⟩, hno, hnd⟩ := deduplicate_merged hid hs hone.agreed
  have hid' : (h.rules.map Rule.id).Nodup := (hp.map Rule.id).nodup_iff.2 hid
  have hs' : Separable h.start h.rules := hstart ▸ hs.of_perm hp
  have hone' : OneRule h.start h.rules := hstart ▸ hone.of_perm hp
  obtain ⟨⟨s', hm'⟩, hno', hnd'⟩ := deduplicate_merged hid' hs' hone'.agreed
  rw [hstart] at hm' hno'
  have hshapes := hm.shapes_perm hm' hno hno' hnd hnd' hp.symm
  refine ⟨?_, (exchange_involutive (hm'.absorbs hm hno hp) (hm.absorbs hm' hno' hp.symm)).toPerm,
    fun v => hm.otherName_of_exchange hm' hp.symm, sameStructure_iff_perm.2 hshapes⟩
  have hlength := hshapes.length_eq
  have hcount : g.deduplicate.1 + g.deduplicate.2.rules.length = g.rules.length :=
    mergeTwins_count g.start g.rules
  have hcount' : h.deduplicate.1 + h.deduplicate.2.rules.length = h.rules.length :=
    mergeTwins_count h.start h.rules
  have hrules := hp.length_eq
  simp only [List.length_map] at hlength
  omega

/-- Names that become equal one after the other; of the last two, both refer to one of them. -/
def looping : Grammar where
  start := "S"
  rules :=
    [⟨"S", [⟨"A", false, 0⟩, ⟨"B", false, 1⟩], 0⟩, ⟨"A", [⟨"C", false, 2⟩, ⟨"A", false, 3⟩], 1⟩,
      ⟨"B", [⟨"D", false, 4⟩, ⟨"A", false, 5⟩], 2⟩, ⟨"C", [⟨"x", true, 6⟩], 3⟩,
      ⟨"D", [⟨"x", true, 7⟩], 4⟩]
  supply := ⟨8, 5, 0⟩

/-- The same grammar from the last rule to the first. -/
def loopingBack : Grammar := { looping with rules := looping.rules.reverse }

theorem deduplicate_perm_looping :
    looping.deduplicate.1 = 2 ∧ loopingBack.deduplicate.1 = looping.deduplicate.1 ∧
      looping.deduplicate.2.sameStructure loopingBack.deduplicate.2 = false ∧
      ∃ σ : Equiv.Perm String,
        (looping.deduplicate.2.mapNames σ).sameStructure loopingBack.deduplicate.2 = true := by
  obtain ⟨hcount, σ, -, hσ⟩ := deduplicate_perm (g := looping) (h := loopingBack) (by decide)
    ⟨by decide, by decide, by decide⟩ (by unfold OneRule; decide) rfl (List.reverse_perm _)
  exact ⟨by decide +kernel, hcount, by rw [sameStructure_eq_isPerm]; decide +kernel, σ, hσ⟩

/-- A name that holds the separator of keys, so that it has the key of two tokens. -/
def joined : Grammar where
  start := "S"
  rules :=
    [⟨"a\x1fb", [⟨"c", true, 0⟩], 0⟩, ⟨"T", [⟨"c", true, 1⟩], 1⟩, ⟨"S", [⟨"T", false, 2⟩], 2⟩,
      ⟨"S", [⟨"a", true, 3⟩, ⟨"b", true, 4⟩], 3⟩]
  supply := ⟨5, 4, 0⟩

/-- Without a condition on names, one order may lead to a name that has the key of two tokens, and
another one not. -/
theorem deduplicate_perm_ne :
    (joined.Readable ∧ OneRule joined.start joined.rules) ∧
      joined.rules.reverse.Perm joined.rules ∧ joined.deduplicate.1 = 2 ∧
      (deduplicate { joined with rules := joined.rules.reverse }).1 = 1 := by
  have hreadable : joined.Readable := ⟨by decide, by decide, by decide, by decide⟩
  exact ⟨⟨hreadable, by unfold OneRule; decide⟩, List.reverse_perm _, by decide +kernel,
    by decide +kernel⟩

end Grammar

end GrammarInduction
