import GrammarInduction.Proofs.Induction.Promotion
import Mathlib.Data.Set.Basic

/-!
# Promotion keeps the language

`Grammar.Fresh g`: no name that the supply has still to hand out is used in `g`. From such a
grammar, whatever its rules are, a promotion changes the words of no name
(`Promotes.derives_iff`), and those of every single right-hand side stay (`Promotes.spells_iff`).
A reference to a new rule spells what the hit spelled: forwards along the segments
(`spells_of_becomes`), backwards along the derivation, in which new rules are folded back into
hits (`Promotes.spells_segments`). So promotion keeps what the names of a grammar derive, be they
recursive, undefined or of several rules (`Grammar.derives_promote`).
-/

namespace GrammarInduction

/-- No name that is still to be handed out is the start name, has a rule or is a value. -/
structure Grammar.Fresh (g : Grammar) : Prop where
  start : ∀ n, g.supply.nextName ≤ n → inducedName n ≠ g.start
  lhs : ∀ r ∈ g.rules, ∀ n, g.supply.nextName ≤ n → inducedName n ≠ r.lhs
  values : ∀ r ∈ g.rules, ∀ n, g.supply.nextName ≤ n → inducedName n ∉ r.values

theorem Grammar.Fresh.ne_value {g : Grammar} (h : g.Fresh) {r : Rule} (hr : r ∈ g.rules) :
    ∀ s ∈ r.rhs, ∀ n, g.supply.nextName ≤ n → inducedName n ≠ s.value := by
  intro s hs n hn he
  refine h.values r hr n hn ?_
  rw [he]
  exact List.mem_map_of_mem hs

/-- The start name, and all names and values of rules. -/
def Grammar.names (g : Grammar) : List String :=
  g.start :: g.rules.flatMap fun r => r.lhs :: r.values

/-- Names that do not look induced or have been handed out are not handed out any more. -/
theorem Grammar.fresh_of_names {g : Grammar} (h : ∀ name ∈ g.names, marked name = false ∨
    ∃ n < g.supply.nextName, name = inducedName n) : g.Fresh := by
  have hne : ∀ name ∈ g.names, ∀ n, g.supply.nextName ≤ n → inducedName n ≠ name := by
    rintro name hname n hn rfl
    rcases h _ hname with hm | ⟨k, hk, he⟩
    · simp at hm
    · have := inducedName_injective he
      omega
  have hrule : ∀ r ∈ g.rules, ∀ name ∈ r.lhs :: r.values, name ∈ g.names := fun r hr name hname =>
    .tail _ (List.mem_flatMap.2 ⟨r, hr, hname⟩)
  refine ⟨hne _ List.mem_cons_self, fun r hr => hne _ (hrule r hr _ List.mem_cons_self), ?_⟩
  intro r hr n hn hv
  exact hne _ (hrule r hr _ (.tail _ hv)) n hn rfl

theorem spells_of_becomes {rules new : List Rule} (hnew : ∀ q ∈ new, q ∈ rules)
    {segs : List Segment} {ys : List Symbol} (h : List.Forall₂ (Segment.Becomes new) segs ys) :
    ∀ {ws}, Spells rules (segs.flatMap Segment.symbols) ws → Spells rules ys ws := by
  induction h with
  | nil => exact fun h => h
  | @cons seg y segs ys hy _ ih =>
    intro ws h
    rw [List.flatMap_cons] at h
    obtain ⟨us, vs, rfl, hus, hvs⟩ := h.split
    suffices hys : Spells rules [y] us from hys.append (ih hvs)
    cases seg with
    | kept x => rw [hy]; exact hus
    | hit body =>
      obtain ⟨ht, q, hq, hl, hs⟩ := hy
      exact .of_rule ht (hnew q hq) hl (hus.congr hs.symm)

namespace Promotes

variable {target : List String} {g g' : Grammar} {old new : List Rule}

theorem spells (h : Promotes target g g' old new) {xs : List Symbol} {ws : List String}
    (hw : Spells g.rules xs ws) : Spells g'.rules xs ws := by
  induction hw with
  | nil => exact .nil
  | terminal ht _ ih => exact .terminal ht ih
  | nonterminal ht hr hl _ _ ih₁ ih₂ =>
    obtain ⟨r', hr', hb⟩ := h.exists_old hr
    refine .nonterminal ht (h.mem_rules.2 (.inl hr')) (hb.lhs.trans hl) ?_ ih₂
    refine spells_of_becomes (fun q hq => h.mem_rules.2 (.inr hq)) hb.rhs ?_
    rwa [flatMap_segments]

/-- A rule whose name has not just been handed out stands for a rule from before. -/
theorem exists_source_of_name (h : Promotes target g g' old new) {r : Rule} (hr : r ∈ g'.rules)
    (hname : ∀ n, g.supply.nextName ≤ n → inducedName n ≠ r.lhs) :
    ∃ p ∈ g.rules, p.Becomes g.start target new r := by
  rcases h.mem_rules.1 hr with hr | hr
  · exact h.exists_source hr
  · obtain ⟨n, hn, -, he⟩ := h.name_of_new hr
    exact absurd he.symm (hname n hn)

theorem lhs_ne_of_new (h : Promotes target g g' old new) (hf : g.Fresh) {p q : Rule}
    (hp : p ∈ g.rules) (hq : q ∈ new) : p.lhs ≠ q.lhs := by
  intro hl
  obtain ⟨n, hn, -, he⟩ := h.name_of_new hq
  exact hf.lhs p hp n hn (he.symm.trans hl.symm)

/-- A new rule is the only rule of its name. -/
theorem eq_of_lhs_new (h : Promotes target g g' old new) (hf : g.Fresh) {r q : Rule}
    (hr : r ∈ g'.rules) (hq : q ∈ new) (hl : r.lhs = q.lhs) : r = q := by
  rcases h.mem_rules.1 hr with hr | hr
  · obtain ⟨p, hp, hb⟩ := h.exists_source hr
    exact absurd (hb.lhs.symm.trans hl) (h.lhs_ne_of_new hf hp hq)
  · exact h.eq_of_new hr hq hl

theorem forall₂_kept {new : List Rule} (xs : List Symbol) :
    List.Forall₂ (Segment.Becomes new) (xs.map .kept) xs := by
  rw [List.forall₂_map_left_iff, List.forall₂_same]
  exact fun _ _ => rfl

/-- What the symbols in the places of segments spell afterwards, the segments spelled before. -/
theorem spells_segments (h : Promotes target g g' old new) (hf : g.Fresh) {ys : List Symbol}
    {ws : List String} (hw : Spells g'.rules ys ws) : ∀ {segs : List Segment},
    List.Forall₂ (Segment.Becomes new) segs ys →
    (∀ s ∈ segs.flatMap Segment.symbols, ∀ n, g.supply.nextName ≤ n → inducedName n ≠ s.value) →
    Spells g.rules (segs.flatMap Segment.symbols) ws := by
  induction hw with
  | nil =>
    intro segs hb _
    cases hb
    exact .nil
  | terminal ht _ ih =>
    intro segs hb hold
    rcases hb with _ | @⟨seg, _, segs, _, hy, hb⟩
    rw [List.flatMap_cons] at hold ⊢
    have ih := ih hb fun s hs => hold s (List.mem_append_right _ hs)
    cases seg with
    | kept x => cases hy; exact .terminal ht ih
    | hit body => exact absurd (ht.symm.trans hy.1) (by simp)
  | @nonterminal s _ us _ r ht hr hl hus _ ih₁ ih₂ =>
    intro segs hb hold
    rcases hb with _ | @⟨seg, _, segs, _, hy, hb⟩
    rw [List.flatMap_cons] at hold ⊢
    have ih₂ := ih₂ hb fun s hs => hold s (List.mem_append_right _ hs)
    cases seg with
    | kept x =>
      -- an old name: its rule stands for a rule of `g`
      cases hy
      obtain ⟨p, hp, hpb⟩ := h.exists_source_of_name hr fun n hn he =>
        hold s (by simp [Segment.symbols]) n hn (he.trans hl)
      have hps := ih₁ hpb.rhs (by rw [flatMap_segments]; exact hf.ne_value hp)
      rw [flatMap_segments] at hps
      exact .nonterminal ht hp (hpb.lhs.symm.trans hl) hps ih₂
    | hit body =>
      -- a new name: its only rule is a copy of the hit
      obtain ⟨-, q, hq, hql, hqs⟩ := hy
      obtain rfl := h.eq_of_lhs_new hf hr hq (hl.trans hql.symm)
      have hr := ih₁ (forall₂_kept r.rhs) fun x hx n hn => by
        rw [flatMap_map_kept] at hx
        obtain ⟨z, hz, hzv, -⟩ := exists_shape hqs hx
        rw [← hzv]
        exact hold z (List.mem_append_left _ hz) n hn
      rw [flatMap_map_kept] at hr
      exact (hr.congr hqs).append ih₂

/-- A right-hand side spells the same words before and after. -/
theorem spells_iff (h : Promotes target g g' old new) (hf : g.Fresh) {r r' : Rule}
    (hr : r ∈ g.rules) (hb : r.Becomes g.start target new r') {ws : List String} :
    Spells g'.rules r'.rhs ws ↔ Spells g.rules r.rhs ws := by
  constructor
  · intro hw
    have hs := h.spells_segments hf hw hb.rhs (by rw [flatMap_segments]; exact hf.ne_value hr)
    rwa [flatMap_segments] at hs
  · intro hw
    refine spells_of_becomes (fun q hq => h.mem_rules.2 (.inr hq)) hb.rhs ?_
    rw [flatMap_segments]
    exact h.spells hw

/-- A name that is not new derives the same words before and after. -/
theorem derives_iff (h : Promotes target g g' old new) (hf : g.Fresh) {name : String}
    (hname : ∀ n, g.supply.nextName ≤ n → inducedName n ≠ name) {ws : List String} :
    g'.Derives name ws ↔ g.Derives name ws := by
  constructor
  · rintro ⟨r', hr', hl, hw⟩
    obtain ⟨r, hr, hb⟩ := h.exists_source_of_name hr' (hl ▸ hname)
    exact ⟨r, hr, hb.lhs.symm.trans hl, (h.spells_iff hf hr hb).1 hw⟩
  · rintro ⟨r, hr, hl, hw⟩
    obtain ⟨r', hr', hb⟩ := h.exists_old hr
    exact ⟨r', h.mem_rules.2 (.inl hr'), hb.lhs.trans hl, (h.spells_iff hf hr hb).2 hw⟩

theorem language_eq (h : Promotes target g g' old new) (hf : g.Fresh) :
    g'.language = g.language := by
  ext ws
  rw [Grammar.language, Grammar.language, Set.mem_ofPred_eq, Set.mem_ofPred_eq, h.start]
  exact h.derives_iff hf hf.start

end Promotes

namespace Grammar

/-- A promotion succeeds, and every name that had a rule derives the words that it derived. -/
theorem derives_promote {g : Grammar} (hid : (g.rules.map Rule.id).Nodup) (hf : g.Fresh)
    (target : List String) :
    ∃ n g', g.promote target = .ok (n, g') ∧
      ∀ name ∈ g.rules.map Rule.lhs, ∀ ws, g'.Derives name ws ↔ g.Derives name ws := by
  obtain ⟨g', old, new, hp, h⟩ := promote_spec hid target
  refine ⟨new.length, g', hp, fun name hname ws => h.derives_iff hf ?_⟩
  obtain ⟨r, hr, rfl⟩ := List.mem_map.1 hname
  exact hf.lhs r hr

/-- A name with three alternatives, which refer to the name itself and to one without a rule; its
value stands for a token as well. The next rule id is in use. -/
def tangled : Grammar where
  start := "S"
  rules :=
    [⟨"S", [⟨"X", false, 0⟩, ⟨"a", true, 1⟩, ⟨"X", true, 2⟩, ⟨"a", true, 3⟩], 0⟩,
      ⟨"X", [⟨"X", true, 4⟩, ⟨"a", true, 5⟩, ⟨"X", false, 6⟩], 2⟩,
      ⟨"X", [⟨"$A0", false, 7⟩, ⟨"X", false, 8⟩], 3⟩,
      ⟨"X", [⟨"b", true, 9⟩], 4⟩]
  supply := ⟨10, 2, 1⟩

theorem derives_promote_tangled :
    ∃ n g', tangled.promote ["X", "a"] = .ok (n, g') ∧
      ∀ name ∈ ["S", "X", "X", "X"], ∀ ws, g'.Derives name ws ↔ tangled.Derives name ws :=
  derives_promote (by decide) (fresh_of_names (by decide)) ["X", "a"]

end Grammar

end GrammarInduction
