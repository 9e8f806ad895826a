import GrammarInduction.Proofs.Grammar.InducedName
import GrammarInduction.Proofs.Grammar.Merge
import GrammarInduction.Proofs.Lists

/-!
# Renaming

A `Renaming` gives other names to rules, other values to symbols and other ids to both. It tells
apart the values and rule ids of its domain, keeps the mark of induced names, and renames them on
either side of a rule alike. Rules whose values, names and ids lie in the domain
(`Renaming.Covers`) are merged under the renaming as they are without it (`mergeTwins_under`), and
have the same structure under the renaming if they have it without (`perm_shapes_under`).
-/

namespace GrammarInduction

/-- Other names, values and ids, and the domain in which they are told apart. -/
structure Renaming where
  name : String → String
  value : String → String
  rule : Nat → Nat
  symbol : Nat → Nat
  values : Set String
  rules : Set Nat
  value_inj : Set.InjOn value values
  rule_inj : Set.InjOn rule rules
  marked_value : ∀ v ∈ values, marked (value v) = marked v
  name_of_marked : ∀ v ∈ values, marked v = true → name v = value v
  separator : ∀ v ∈ values, '\x1f' ∉ v.toList ∧ '\x1f' ∉ (value v).toList

/-- The symbol under a renaming. -/
def Symbol.under (ρ : Renaming) (s : Symbol) : Symbol := ⟨ρ.value s.value, s.terminal, ρ.symbol s.id⟩

/-- The rule under a renaming. -/
def Rule.under (ρ : Renaming) (r : Rule) : Rule :=
  ⟨ρ.name r.lhs, r.rhs.map (Symbol.under ρ), ρ.rule r.id⟩

section
variable (ρ : Renaming)

@[simp] theorem Symbol.under_value (s : Symbol) : (s.under ρ).value = ρ.value s.value := rfl

@[simp] theorem Rule.under_lhs (r : Rule) : (r.under ρ).lhs = ρ.name r.lhs := rfl

@[simp] theorem Rule.under_id (r : Rule) : (r.under ρ).id = ρ.rule r.id := rfl

@[simp] theorem Rule.under_rhs (r : Rule) : (r.under ρ).rhs = r.rhs.map (Symbol.under ρ) := rfl

theorem map_value_under (xs : List Symbol) :
    (xs.map (Symbol.under ρ)).map Symbol.value = (xs.map Symbol.value).map ρ.value := by
  simp

@[simp] theorem Rule.under_values (r : Rule) : (r.under ρ).values = r.values.map ρ.value :=
  map_value_under ρ r.rhs

end

namespace Renaming

variable {ρ : Renaming} {start : String}

/-! ## Names -/

/-- The start name, or an induced name of the domain. -/
def Known (ρ : Renaming) (start name : String) : Prop :=
  name = start ∨ name ∈ ρ.values ∧ marked name = true

/-- The start name is not induced and stays. -/
structure Fixes (ρ : Renaming) (start : String) : Prop where
  name : ρ.name start = start
  unmarked : marked start = false

theorem Known.marked_name {a : String} (h : ρ.Known start a) (hs : ρ.Fixes start) :
    marked (ρ.name a) = marked a := by
  rcases h with rfl | ⟨ha, hm⟩
  · rw [hs.name]
  · rw [ρ.name_of_marked a ha hm, ρ.marked_value a ha]

theorem Known.name_inj {a b : String} (hs : ρ.Fixes start) (ha : ρ.Known start a)
    (hb : ρ.Known start b) : ρ.name a = ρ.name b ↔ a = b := by
  refine ⟨fun h => ?_, fun h => h ▸ rfl⟩
  have hmark := congrArg marked h
  rw [ha.marked_name hs, hb.marked_name hs] at hmark
  rcases ha with rfl | ⟨ha, hma⟩ <;> rcases hb with rfl | ⟨hb, hmb⟩
  · rfl
  · rw [hs.unmarked, hmb] at hmark
    cases hmark
  · rw [hs.unmarked, hma] at hmark
    cases hmark
  · rw [ρ.name_of_marked a ha hma, ρ.name_of_marked b hb hmb] at h
    exact ρ.value_inj ha hb h

theorem Known.name_eq_start_iff {a : String} (hs : ρ.Fixes start) (ha : ρ.Known start a) :
    ρ.name a = start ↔ a = start := by
  have h := ha.name_inj hs (.inl rfl)
  rwa [hs.name] at h

/-! ## Rules of the domain -/

/-- Names, values and ids of the rules lie in the domain, and no right-hand side is empty. -/
structure Covers (ρ : Renaming) (start : String) (rules : List Rule) : Prop where
  values : ∀ r ∈ rules, ∀ v ∈ r.values, v ∈ ρ.values
  names : ∀ r ∈ rules, ρ.Known start r.lhs
  ids : ∀ r ∈ rules, r.id ∈ ρ.rules
  rhs_ne : ∀ r ∈ rules, r.rhs ≠ []

theorem Covers.mono {rules rules' : List Rule} (h : ρ.Covers start rules)
    (hsub : ∀ r ∈ rules', r ∈ rules) : ρ.Covers start rules' where
  values := fun r hr => h.values r (hsub r hr)
  names := fun r hr => h.names r (hsub r hr)
  ids := fun r hr => h.ids r (hsub r hr)
  rhs_ne := fun r hr => h.rhs_ne r (hsub r hr)

theorem Covers.nodup_ids {rules : List Rule} (h : ρ.Covers start rules)
    (hid : (rules.map Rule.id).Nodup) : ((rules.map (Rule.under ρ)).map Rule.id).Nodup := by
  have hmap : (rules.map (Rule.under ρ)).map Rule.id = (rules.map Rule.id).map ρ.rule := by simp
  rw [hmap]
  refine List.Nodup.map_on (fun i hi j hj hij => ?_) hid
  obtain ⟨r, hr, rfl⟩ := List.mem_map.1 hi
  obtain ⟨q, hq, rfl⟩ := List.mem_map.1 hj
  exact ρ.rule_inj (h.ids r hr) (h.ids q hq) hij

/-! ## Twins -/

theorem values_ne_nil {r : Rule} (h : r.rhs ≠ []) : r.values ≠ [] := by
  simpa [Rule.values] using h

/-- The keys are the same under the renaming if they are without. -/
theorem Covers.key_eq_iff {rules : List Rule} (h : ρ.Covers start rules) {r q : Rule}
    (hr : r ∈ rules) (hq : q ∈ rules) : (r.under ρ).key = (q.under ρ).key ↔ r.key = q.key := by
  have hsep : ∀ p ∈ rules, ∀ v ∈ p.values.map ρ.value, '\x1f' ∉ v.toList := by
    intro p hp v hv
    obtain ⟨w, hw, rfl⟩ := List.mem_map.1 hv
    exact (ρ.separator w (h.values p hp w hw)).2
  have hnil : ∀ p ∈ rules, p.values.map ρ.value ≠ [] := fun p hp =>
    mt List.map_eq_nil_iff.1 (values_ne_nil (h.rhs_ne p hp))
  rw [Rule.key, Rule.key, Rule.under_values, Rule.under_values,
    joinedKey_inj (hnil r hr) (hnil q hq) (hsep r hr) (hsep q hq),
    map_eq_map_iff_of_injOn ρ.value_inj (h.values r hr) (h.values q hq), Rule.key, Rule.key,
    joinedKey_inj (values_ne_nil (h.rhs_ne r hr)) (values_ne_nil (h.rhs_ne q hq))
      (fun v hv => (ρ.separator v (h.values r hr v hv)).1)
      fun v hv => (ρ.separator v (h.values q hq v hv)).1]

theorem Covers.twins_under {rules : List Rule} (hs : ρ.Fixes start) (h : ρ.Covers start rules)
    {r q : Rule} (hr : r ∈ rules) (hq : q ∈ rules) :
    (r.under ρ).twins start (q.under ρ) = r.twins start q := by
  have hkey : ((r.under ρ).key == (q.under ρ).key) = (r.key == q.key) := by
    rw [Bool.eq_iff_iff, beq_iff_eq, beq_iff_eq, h.key_eq_iff hr hq]
  have hlhs : ∀ p ∈ rules, ((p.under ρ).lhs == start) = (p.lhs == start) := by
    intro p hp
    rw [Bool.eq_iff_iff, beq_iff_eq, beq_iff_eq, Rule.under_lhs,
      (h.names p hp).name_eq_start_iff hs]
  rw [Rule.twins, Rule.twins, hkey, hlhs r hr, hlhs q hq]

theorem Covers.firstTwins_under (hs : ρ.Fixes start) : ∀ {rules : List Rule},
    ρ.Covers start rules → firstTwins start (rules.map (Rule.under ρ)) =
      (firstTwins start rules).map fun t => (t.1.under ρ, t.2.map (Rule.under ρ))
  | [], _ => rfl
  | r :: rest, h => by
    have ih := firstTwins_under hs (h.mono fun q hq => .tail _ hq)
    have hfilter : (rest.map (Rule.under ρ)).filter ((r.under ρ).twins start) =
        (rest.filter (r.twins start)).map (Rule.under ρ) := by
      rw [List.filter_map]
      refine congrArg _ (List.filter_congr fun q hq => ?_)
      exact h.twins_under hs List.mem_cons_self (.tail _ hq)
    rw [List.map_cons, firstTwins, firstTwins, hfilter]
    cases rest.filter (r.twins start) with
    | nil => exact ih
    | cons q others => rfl

/-! ## Merging -/

/-- The rule may be merged into one of the name `keep`. -/
structure Joins (ρ : Renaming) (start keep : String) (t : Rule) : Prop where
  name : ρ.Known start t.lhs
  id : t.id ∈ ρ.rules
  kind : t.lhs = start ↔ keep = start

section
variable {keep : String} {rules : List Rule} {t : Rule} (hs : ρ.Fixes start)
  (hk : ρ.Known start keep) (ht : ρ.Joins start keep t) (h : ρ.Covers start rules)

include hk ht in
/-- Names that are merged are values of the domain. -/
theorem Joins.mem_values (hne : t.lhs ≠ keep) :
    (t.lhs ∈ ρ.values ∧ marked t.lhs = true) ∧ keep ∈ ρ.values ∧ marked keep = true := by
  have hts : t.lhs ≠ start := fun hl => hne (hl.trans (ht.kind.1 hl).symm)
  have hks : keep ≠ start := fun hl => hts (ht.kind.2 hl)
  exact ⟨ht.name.resolve_left hts, hk.resolve_left hks⟩

include hk ht h in
theorem Covers.renamed (hne : t.lhs ≠ keep) :
    ρ.Covers start (rules.map (Rule.rename t.lhs keep)) := by
  obtain ⟨-, hkeep, -⟩ := ht.mem_values hk hne
  constructor
  · intro q hq v hv
    obtain ⟨r, hr, rfl⟩ := List.mem_map.1 hq
    rw [Rule.rename_values, List.mem_map] at hv
    obtain ⟨w, hw, rfl⟩ := hv
    unfold GrammarInduction.renamed
    split
    · exact hkeep
    · exact h.values r hr w hw
  · intro q hq
    obtain ⟨r, hr, rfl⟩ := List.mem_map.1 hq
    exact h.names r hr
  · intro q hq
    obtain ⟨r, hr, rfl⟩ := List.mem_map.1 hq
    exact h.ids r hr
  · intro q hq
    obtain ⟨r, hr, rfl⟩ := List.mem_map.1 hq
    have hne := h.rhs_ne r hr
    simpa [Rule.rename] using hne

include hk ht h in
theorem Covers.absorb (n : Nat) : ρ.Covers start (absorb keep (n, rules) t).2 := by
  unfold GrammarInduction.absorb
  refine Covers.mono ?_ fun r hr => List.mem_of_mem_eraseP hr
  split
  · exact h
  · rename_i hne
    exact h.renamed hk ht hne

include hk ht in
/-- Renaming commutes with writing one name for another. -/
theorem Joins.rename_under (hne : t.lhs ≠ keep) {r : Rule} (hr : ∀ v ∈ r.values, v ∈ ρ.values) :
    (r.under ρ).rename (ρ.name t.lhs) (ρ.name keep) = (r.rename t.lhs keep).under ρ := by
  obtain ⟨⟨htv, htm⟩, hkv, hkm⟩ := ht.mem_values hk hne
  have hsymbol : ∀ s ∈ r.rhs, (s.under ρ).renamed (ρ.name t.lhs) (ρ.name keep) =
      (s.renamed t.lhs keep).under ρ := by
    intro s hsr
    have hiff := ρ.value_inj.eq_iff (hr s.value (List.mem_map_of_mem hsr)) htv
    rw [ρ.name_of_marked _ htv htm, ρ.name_of_marked _ hkv hkm]
    by_cases hst : s.value = t.lhs
    · simp [Symbol.renamed, Symbol.under, hst]
    · simp [Symbol.renamed, Symbol.under, hst, mt hiff.1 hst]
  have hrhs : ((r.under ρ).rename (ρ.name t.lhs) (ρ.name keep)).rhs =
      ((r.rename t.lhs keep).under ρ).rhs := by
    rw [Rule.rename_rhs, Rule.under_rhs, Rule.under_rhs, Rule.rename_rhs, List.map_map,
      List.map_map]
    exact List.map_congr_left hsymbol
  exact congrArg (fun rhs => Rule.mk (ρ.name r.lhs) rhs (ρ.rule r.id)) hrhs

/-- An id is taken out of the rules under the renaming as it is without. -/
theorem Covers.eraseP_under {i : Nat} (hi : i ∈ ρ.rules) : ∀ {rules : List Rule},
    ρ.Covers start rules → (rules.map (Rule.under ρ)).eraseP (·.id == ρ.rule i) =
      (rules.eraseP (·.id == i)).map (Rule.under ρ)
  | [], _ => rfl
  | r :: rest, h => by
    have ih := eraseP_under hi (h.mono fun q hq => .tail _ hq)
    have hiff := ρ.rule_inj.eq_iff (h.ids r List.mem_cons_self) hi
    by_cases hri : r.id = i
    · simp [hri]
    · simp [hri, mt hiff.1 hri, ih]

theorem Covers.any_under {i : Nat} (hi : i ∈ ρ.rules) (h : ρ.Covers start rules) :
    (rules.map (Rule.under ρ)).any (·.id == ρ.rule i) = rules.any (·.id == i) := by
  rw [Bool.eq_iff_iff]
  simp only [List.any_map, List.any_eq_true, Function.comp_apply, Rule.under_id, beq_iff_eq]
  exact exists_congr fun r => and_congr_right fun hr => ρ.rule_inj.eq_iff (h.ids r hr) hi

include hs hk ht h in
theorem Covers.absorb_under (n : Nat) :
    GrammarInduction.absorb (ρ.name keep) (n, rules.map (Rule.under ρ)) (t.under ρ) =
      ((GrammarInduction.absorb keep (n, rules) t).1,
        (GrammarInduction.absorb keep (n, rules) t).2.map (Rule.under ρ)) := by
  have hiff := ht.name.name_inj hs hk
  unfold GrammarInduction.absorb
  by_cases hne : t.lhs = keep
  · simp only [Rule.under_lhs, Rule.under_id, hne, if_true, h.any_under ht.id,
      h.eraseP_under ht.id]
  · have hrules : (rules.map (Rule.under ρ)).map (Rule.rename (ρ.name t.lhs) (ρ.name keep)) =
        (rules.map (Rule.rename t.lhs keep)).map (Rule.under ρ) := by
      rw [List.map_map, List.map_map]
      exact List.map_congr_left fun r hr => ht.rename_under hk hne (h.values r hr)
    have hren := h.renamed hk ht hne
    simp only [Rule.under_lhs, Rule.under_id, hne, mt hiff.1 hne, if_false, hrules,
      hren.any_under ht.id, hren.eraseP_under ht.id]

include hs hk in
theorem Covers.foldl_absorb_under : ∀ {others : List Rule} {rules : List Rule} {n : Nat},
    (∀ t ∈ others, ρ.Joins start keep t) → ρ.Covers start rules →
    (others.map (Rule.under ρ)).foldl (GrammarInduction.absorb (ρ.name keep))
        (n, rules.map (Rule.under ρ)) =
      ((others.foldl (GrammarInduction.absorb keep) (n, rules)).1,
        (others.foldl (GrammarInduction.absorb keep) (n, rules)).2.map (Rule.under ρ)) ∧
      ρ.Covers start (others.foldl (GrammarInduction.absorb keep) (n, rules)).2
  | [], rules, n, _, h => ⟨rfl, h⟩
  | t :: others, rules, n, hothers, h => by
    have ht := hothers t List.mem_cons_self
    rw [List.map_cons, List.foldl_cons, List.foldl_cons, h.absorb_under hs hk ht n]
    exact foldl_absorb_under (fun u hu => hothers u (.tail _ hu)) (h.absorb hk ht n)

end

/-- What a round of merging takes together may be merged. -/
theorem Covers.joins_of_firstTwins {rules : List Rule} (h : ρ.Covers start rules) {r : Rule}
    {others : List Rule} (hf : firstTwins start rules = some (r, others)) :
    ρ.Known start r.lhs ∧ ∀ t ∈ others, ρ.Joins start r.lhs t := by
  obtain ⟨hsub, htwins⟩ := firstTwins_eq_some hf
  refine ⟨h.names r (hsub.subset List.mem_cons_self), fun t ht => ?_⟩
  have htm := hsub.subset (.tail _ ht)
  have htw := htwins t ht
  simp only [Rule.twins, Bool.and_eq_true, beq_iff_eq] at htw
  refine ⟨h.names t htm, h.ids t htm, ?_⟩
  rw [← beq_iff_eq, ← htw.1, beq_iff_eq]

/-- Deduplication commutes with a renaming. -/
theorem mergeTwins_under (hs : ρ.Fixes start) {rules : List Rule} (h : ρ.Covers start rules) :
    mergeTwins start (rules.map (Rule.under ρ)) =
        ((mergeTwins start rules).1, (mergeTwins start rules).2.map (Rule.under ρ)) ∧
      ρ.Covers start (mergeTwins start rules).2 := by
  fun_induction mergeTwins start rules with
  | case1 rules hnone =>
    refine ⟨?_, h⟩
    have hfirst := h.firstTwins_under hs
    rw [hnone, Option.map_none] at hfirst
    exact mergeTwins_of_none hfirst
  | case2 rules r others hsome n rules' heq ih =>
    obtain ⟨hknown, hjoins⟩ := h.joins_of_firstTwins hsome
    obtain ⟨hfold, hcov⟩ := h.foldl_absorb_under hs hknown hjoins (n := 0)
    obtain ⟨hih, hcov'⟩ := ih hcov
    rw [heq] at hih hcov'
    refine ⟨?_, hcov'⟩
    have hfirst := h.firstTwins_under hs
    rw [hsome, Option.map_some] at hfirst
    rw [mergeTwins]
    split
    · rename_i hnone
      rw [hfirst] at hnone
      cases hnone
    · rename_i r₁ others₁ hsome₁
      rw [hfirst, Option.some.injEq, Prod.mk.injEq] at hsome₁
      obtain ⟨rfl, rfl⟩ := hsome₁
      rw [Rule.under_lhs, hfold]
      simp only [hih]

/-! ## Structure -/

/-- Rules have the structure of others under the renaming if they have it without. -/
theorem perm_shapes_under (hs : ρ.Fixes start) {rules rules' : List Rule}
    (h : ρ.Covers start rules) (h' : ρ.Covers start rules') :
    ((rules.map (Rule.under ρ)).map Rule.shape).Perm ((rules'.map (Rule.under ρ)).map Rule.shape) ↔
      (rules.map Rule.shape).Perm (rules'.map Rule.shape) := by
  let known : Set (String × List String) :=
    {x | ρ.Known start x.1 ∧ ∀ v ∈ x.2, v ∈ ρ.values}
  have hinj : Set.InjOn (fun x => (ρ.name x.1, x.2.map ρ.value)) known := by
    rintro ⟨a, vs⟩ ⟨ha, hvs⟩ ⟨b, ws⟩ ⟨hb, hws⟩ hab
    rw [Prod.mk.injEq, ha.name_inj hs hb, map_eq_map_iff_of_injOn ρ.value_inj hvs hws] at hab
    rw [Prod.mk.injEq]
    exact hab
  have hmap : ∀ l : List Rule, (l.map (Rule.under ρ)).map Rule.shape =
      (l.map Rule.shape).map fun x => (ρ.name x.1, x.2.map ρ.value) := by
    intro l
    rw [List.map_map, List.map_map]
    exact List.map_congr_left fun r _ => by simp [Rule.shape]
  have hmem : ∀ {l : List Rule}, ρ.Covers start l → ∀ x ∈ l.map Rule.shape, x ∈ known := by
    intro l hl x hx
    obtain ⟨r, hr, rfl⟩ := List.mem_map.1 hx
    exact ⟨hl.names r hr, hl.values r hr⟩
  rw [hmap, hmap, map_perm_map_iff_of_injOn hinj (hmem h) (hmem h')]

end Renaming

end GrammarInduction
