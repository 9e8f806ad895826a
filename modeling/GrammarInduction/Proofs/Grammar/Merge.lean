import GrammarInduction.Proofs.Grammar.Survivors
import GrammarInduction.Proofs.Lists
import Mathlib.Data.List.Nodup
import Mathlib.Logic.Relation

/-!
# Merging as a sequence of single merges

Where ids are distinct and keys tell values apart (`Separable`), deduplication is a sequence of
single merges (`mergeTwins_merges`), each of a rule `t` into a rule `r` with the same values: the
name of `t` is written as that of `r` and `t` is left out. A property that a single merge keeps is
thus kept by deduplication (`mergeTwins_induct`). Where it matters which of two twins goes, the
merges of a round are taken together (`mergeTwins_rounds`, `foldl_absorb_induct`): `r` stands before
all rules that it absorbs (`eq_or_mem_of_twins`).
-/

namespace GrammarInduction

/-! ## Keys -/

/-- Values without the separator are told apart by their keys. -/
theorem joinedKey_inj {vs ws : List String} (hv : vs ≠ []) (hw : ws ≠ [])
    (hvs : ∀ v ∈ vs, '\x1f' ∉ v.toList) (hws : ∀ w ∈ ws, '\x1f' ∉ w.toList) :
    joinedKey vs = joinedKey ws ↔ vs = ws :=
  intercalate_inj rfl hv hw hvs hws

/-! ## Single merges -/

/-- `t` is taken out, and its name is written as `keep`. -/
def dissolve (keep : String) (t : Rule) (rules : List Rule) : List Rule :=
  (rules.filter (·.id != t.id)).map (Rule.rename t.lhs keep)

theorem mem_dissolve {keep : String} {t q : Rule} {rules : List Rule} :
    q ∈ dissolve keep t rules ↔ ∃ p ∈ rules, p.id ≠ t.id ∧ p.rename t.lhs keep = q := by
  simp [dissolve, and_assoc]

theorem dissolve_frame (keep : String) (t : Rule) (rules : List Rule) :
    ((dissolve keep t rules).map Rule.frame).Sublist (rules.map Rule.frame) := by
  rw [dissolve, Rule.map_frame_rename]
  exact List.filter_sublist.map _

theorem eraseP_id : ∀ {rules : List Rule}, (rules.map Rule.id).Nodup → ∀ i,
    rules.eraseP (·.id == i) = rules.filter (·.id != i)
  | [], _, _ => rfl
  | r :: rest, h, i => by
    rw [List.map_cons, List.nodup_cons] at h
    by_cases hr : r.id = i
    · have hrest : rest.filter (·.id != i) = rest := by
        rw [List.filter_eq_self]
        intro q hq
        have : q.id ≠ i := fun hqi => h.1 (hr ▸ hqi ▸ List.mem_map_of_mem hq)
        simpa using this
      rw [List.eraseP_cons_of_pos (by simpa using hr), List.filter_cons_of_neg (by simpa using hr),
        hrest]
    · rw [List.eraseP_cons_of_neg (by simpa using hr), List.filter_cons_of_pos (by simpa using hr),
        eraseP_id h.2]

theorem absorb_eq_dissolve {rules : List Rule} (hid : (rules.map Rule.id).Nodup) (keep : String)
    (n : Nat) (t : Rule) : (absorb keep (n, rules) t).2 = dissolve keep t rules := by
  rw [absorb_rules, dissolve, eraseP_id (by simpa [Function.comp_def] using hid), List.filter_map]
  rfl

/-- `t` may be merged into `r`. -/
structure Mergeable (start : String) (rules : List Rule) (r t : Rule) : Prop where
  mem : r ∈ rules
  mem' : t ∈ rules
  ids : r.id ≠ t.id
  kind : r.lhs = start ↔ t.lhs = start
  values : r.values = t.values

/-- One rule is merged into another with the same values. -/
inductive Merges (start : String) (rules : List Rule) : List Rule → Prop
  | intro {r t : Rule} : Mergeable start rules r t → Merges start rules (dissolve r.lhs t rules)

/-- Keys tell values apart and will do so after any merge: no right-hand side is empty, and no
value or name that a merge can bring in holds the separator. -/
structure Separable (start : String) (rules : List Rule) : Prop where
  rhs_ne : ∀ r ∈ rules, r.rhs ≠ []
  values : ∀ r ∈ rules, ∀ v ∈ r.values, '\x1f' ∉ v.toList
  names : ∀ r ∈ rules, r.lhs ≠ start → '\x1f' ∉ r.lhs.toList

theorem Separable.values_eq {start : String} {rules : List Rule} (hs : Separable start rules)
    {r q : Rule} (hr : r ∈ rules) (hq : q ∈ rules) : r.key = q.key ↔ r.values = q.values :=
  joinedKey_inj (by simpa [Rule.values] using hs.rhs_ne r hr)
    (by simpa [Rule.values] using hs.rhs_ne q hq) (hs.values r hr) (hs.values q hq)

theorem Separable.twins_iff {start : String} {rules : List Rule} (hs : Separable start rules)
    {r q : Rule} (hr : r ∈ rules) (hq : q ∈ rules) :
    r.twins start q = true ↔ (r.lhs = start ↔ q.lhs = start) ∧ r.values = q.values := by
  rw [← hs.values_eq hr hq]
  by_cases h₁ : r.lhs = start <;> by_cases h₂ : q.lhs = start <;> simp [Rule.twins, h₁, h₂]

theorem Separable.dissolve {start : String} {rules : List Rule} (hs : Separable start rules)
    {r t : Rule} (hm : Mergeable start rules r t) : Separable start (dissolve r.lhs t rules) := by
  constructor
  · intro q hq
    obtain ⟨p, hp, -, rfl⟩ := mem_dissolve.1 hq
    have := hs.rhs_ne p hp
    simpa [Rule.rename] using this
  · intro q hq v hv
    obtain ⟨p, hp, -, rfl⟩ := mem_dissolve.1 hq
    rw [Rule.rename_values, List.mem_map] at hv
    obtain ⟨w, hw, rfl⟩ := hv
    unfold renamed
    split
    · rename_i hwt
      by_cases hrs : r.lhs = start
      · rw [hrs, ← hm.kind.1 hrs, ← hwt]
        exact hs.values p hp w hw
      · exact hs.names r hm.mem hrs
    · exact hs.values p hp w hw
  · intro q hq hne
    obtain ⟨p, hp, -, rfl⟩ := mem_dissolve.1 hq
    exact hs.names p hp hne

theorem nodup_ids_dissolve {rules : List Rule} (hid : (rules.map Rule.id).Nodup) (keep : String)
    (t : Rule) : ((dissolve keep t rules).map Rule.id).Nodup :=
  hid.sublist (sublist_of_frame (dissolve_frame keep t rules) fun x => x.2.1)

/-- Rules of distinct ids are known by their ids. -/
theorem eq_of_id {rules : List Rule} (hid : (rules.map Rule.id).Nodup) {r q : Rule}
    (hr : r ∈ rules) (hq : q ∈ rules) (h : r.id = q.id) : r = q :=
  List.inj_on_of_nodup_map hid hr hq h

/-- What a round has still to absorb: the rules with the ids and names of `others` have the values
of `r`, to which the earlier ones have been renamed. -/
def Absorbable (start : String) (rules : List Rule) (r : Rule) (others : List Rule) : Prop :=
  ∀ t ∈ others, r.id ≠ t.id ∧ (r.lhs = start ↔ t.lhs = start) ∧
    ∃ t' ∈ rules, t'.id = t.id ∧ t'.lhs = t.lhs ∧ r.values = t'.values

theorem Absorbable.tail {start : String} {rules : List Rule} {r t : Rule} {others : List Rule}
    (h : Absorbable start rules r (t :: others)) (hid : ((t :: others).map Rule.id).Nodup) :
    Absorbable start (dissolve r.lhs t rules) (r.rename t.lhs r.lhs) others := by
  intro u hu
  obtain ⟨hne, hst, u', hu', hi, hl, hv⟩ := h u (.tail _ hu)
  rw [List.map_cons, List.nodup_cons] at hid
  have hut : u.id ≠ t.id := fun h => hid.1 (h ▸ List.mem_map_of_mem hu)
  refine ⟨hne, hst, u'.rename t.lhs r.lhs, mem_dissolve.2 ⟨u', hu', hi ▸ hut, rfl⟩, hi, hl, ?_⟩
  rw [Rule.rename_values, Rule.rename_values, hv]

/-- What the single merges of a round keep, the round keeps. -/
theorem foldl_absorb_induct {start : String} {P : List Rule → Prop} {i : Nat} :
    ∀ (others : List Rule) (n : Nat) {rules : List Rule} {r : Rule},
      (∀ {rules r t}, P rules → Mergeable start rules r t → r.id = i → t.id ∈ others.map Rule.id →
        P (dissolve r.lhs t rules)) →
      (rules.map Rule.id).Nodup → r ∈ rules → r.id = i → (others.map Rule.id).Nodup →
      Absorbable start rules r others → P rules → P (others.foldl (absorb r.lhs) (n, rules)).2
  | [], _, _, _, _, _, _, _, _, _, h => h
  | t :: others, n, rules, r, hstep, hid, hr, hri, hot, hab, h => by
    obtain ⟨hne, hst, t', ht', hi, hl, hv⟩ := hab t List.mem_cons_self
    have hm : P (dissolve r.lhs t rules) := by
      have h := hstep h ⟨hr, ht', hi ▸ hne, hl ▸ hst, hv⟩ hri (hi ▸ List.mem_cons_self)
      rwa [show dissolve r.lhs t' rules = dissolve r.lhs t rules by
        rw [dissolve, dissolve, hi, hl]] at h
    have hr' : r.rename t.lhs r.lhs ∈ dissolve r.lhs t rules := mem_dissolve.2 ⟨r, hr, hne, rfl⟩
    have ih := foldl_absorb_induct others (absorb r.lhs (n, rules) t).1
      (fun h m hi ht => hstep h m hi (.tail _ ht)) (nodup_ids_dissolve hid r.lhs t) hr' hri
      (List.nodup_cons.1 hot).2 (hab.tail hot) hm
    rw [← absorb_eq_dissolve hid r.lhs n t, Rule.rename_lhs] at ih
    exact ih

theorem absorbable_firstTwins {start : String} {rules : List Rule} {r : Rule} {others : List Rule}
    (hid : (rules.map Rule.id).Nodup) (hs : Separable start rules)
    (h : firstTwins start rules = some (r, others)) :
    r ∈ rules ∧ (others.map Rule.id).Nodup ∧ Absorbable start rules r others := by
  obtain ⟨hsub, htw⟩ := firstTwins_eq_some h
  have hr := hsub.subset List.mem_cons_self
  have hnd := hid.sublist (hsub.map Rule.id)
  rw [List.map_cons, List.nodup_cons] at hnd
  refine ⟨hr, hnd.2, fun t ht => ?_⟩
  have htm := hsub.subset (.tail _ ht)
  obtain ⟨hst, hv⟩ := (hs.twins_iff hr htm).1 (htw t ht)
  exact ⟨fun hi => hnd.1 (hi ▸ List.mem_map_of_mem ht), hst, t, htm, rfl, rfl, hv⟩

theorem Separable.reflTransGen {start : String} {rules rules' : List Rule}
    (hid : (rules.map Rule.id).Nodup) (hs : Separable start rules)
    (h : Relation.ReflTransGen (Merges start) rules rules') :
    (rules'.map Rule.id).Nodup ∧ Separable start rules' := by
  induction h with
  | refl => exact ⟨hid, hs⟩
  | tail _ hm ih =>
    obtain ⟨hid, hs⟩ := ih
    obtain ⟨hm⟩ := hm
    exact ⟨nodup_ids_dissolve hid _ _, hs.dissolve hm⟩

theorem foldl_absorb_merges {start : String} {rules : List Rule} {r : Rule} {others : List Rule}
    (hid : (rules.map Rule.id).Nodup) (hs : Separable start rules)
    (h : firstTwins start rules = some (r, others)) :
    Relation.ReflTransGen (Merges start) rules (others.foldl (absorb r.lhs) (0, rules)).2 := by
  obtain ⟨hr, hot, hab⟩ := absorbable_firstTwins hid hs h
  exact foldl_absorb_induct others 0 (fun h m _ _ => h.tail ⟨m⟩) hid hr rfl hot hab .refl

/-- What every round keeps, deduplication keeps. -/
theorem mergeTwins_rounds {start : String} {P : List Rule → Prop} {rules : List Rule}
    (hid : (rules.map Rule.id).Nodup) (hs : Separable start rules)
    (hround : ∀ {rules r others}, (rules.map Rule.id).Nodup → Separable start rules → P rules →
      firstTwins start rules = some (r, others) → P (others.foldl (absorb r.lhs) (0, rules)).2)
    (h : P rules) : P (mergeTwins start rules).2 := by
  fun_induction mergeTwins start rules with
  | case1 => exact h
  | case2 rules r others hfirst n rules' heq ih =>
    rw [heq] at ih
    obtain ⟨hid', hs'⟩ := hs.reflTransGen hid (foldl_absorb_merges hid hs hfirst)
    exact ih hid' hs' (hround hid hs h hfirst)

theorem mergeTwins_merges {start : String} {rules : List Rule} (hid : (rules.map Rule.id).Nodup)
    (hs : Separable start rules) :
    Relation.ReflTransGen (Merges start) rules (mergeTwins start rules).2 :=
  mergeTwins_rounds hid hs (fun hid hs h hfirst => h.trans (foldl_absorb_merges hid hs hfirst)) .refl

/-- What every single merge keeps, deduplication keeps. -/
theorem mergeTwins_induct {start : String} {P : List Rule → Prop} {rules : List Rule}
    (hid : (rules.map Rule.id).Nodup) (hs : Separable start rules)
    (hstep : ∀ {rules rules'}, P rules → Merges start rules rules' → P rules') (h : P rules) :
    P (mergeTwins start rules).2 := by
  generalize (mergeTwins start rules).2 = rules', mergeTwins_merges hid hs = hm
  induction hm with
  | refl => exact h
  | tail _ hm ih => exact hstep ih hm

theorem Rule.twins_comm (start : String) (r q : Rule) : r.twins start q = q.twins start r := by
  rw [Rule.twins, Rule.twins, Bool.beq_comm (a := (r.lhs == start)), BEq.comm (a := r.key)]

/-- The first rule that has twins stands before all of them. -/
theorem eq_or_mem_of_twins {start : String} : ∀ {rules : List Rule} {r : Rule} {others : List Rule},
    firstTwins start rules = some (r, others) → ∀ q ∈ rules, r.twins start q = true →
      q = r ∨ q ∈ others
  | [], _, _, h => by simp [firstTwins] at h
  | p :: rest, r, others, h => by
    intro q hq htw
    unfold firstTwins at h
    split at h
    · rename_i hnone
      rcases List.mem_cons.1 hq with rfl | hq
      · have hr := (firstTwins_eq_some h).1.subset List.mem_cons_self
        have hmem := List.mem_filter.2 ⟨hr, (Rule.twins_comm start r q).symm.trans htw⟩
        rw [hnone] at hmem
        cases hmem
      · exact eq_or_mem_of_twins h q hq htw
    · rename_i u ts hf
      cases h
      rw [← hf]
      exact (List.mem_cons.1 hq).imp_right fun hq => List.mem_filter.2 ⟨hq, htw⟩

/-- After deduplication, rules of one kind with the same values are one rule. -/
theorem eq_of_mem_mergeTwins {start : String} {rules : List Rule} (hid : (rules.map Rule.id).Nodup)
    (hs : Separable start rules) {r q : Rule} (hr : r ∈ (mergeTwins start rules).2)
    (hq : q ∈ (mergeTwins start rules).2) (hst : r.lhs = start ↔ q.lhs = start)
    (hv : r.values = q.values) : r = q := by
  have hs' := (hs.reflTransGen hid (mergeTwins_merges hid hs)).2
  have htw := (hs'.twins_iff hr hq).2 ⟨hst, hv⟩
  by_contra hne
  have hsymm : Std.Symm fun r q : Rule => r.twins start q = false :=
    ⟨fun r q h => by rw [Rule.twins_comm, h]⟩
  have hno := (mergeTwins_twinless start rules).forall hr hq hne
  rw [htw] at hno
  cases hno

end GrammarInduction
