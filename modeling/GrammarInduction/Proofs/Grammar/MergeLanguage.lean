import GrammarInduction.Proofs.Grammar.WellFormed
import Mathlib.Data.Set.Basic

/-!
# Merging keeps the language

In an unequivocal grammar (`Grammar.Unequivocal`) a value tells the kind of a symbol. If the two
rules of a single merge are all that their names stand for (`Agreed`), the merge keeps what every
sequence of symbols unfolds to, once the symbols are renamed (`Unequivocal.unfolds_merge_iff`): a
reference to the rule that goes becomes one to a rule with the same values. Thus every rule that
stays spells what it spelled (`Unequivocal.spells_merge`), and the language is kept
(`Unequivocal.language_merge`).
-/

namespace GrammarInduction

/-- Where values tell the kinds of symbols, sequences with the same values have the same shapes. -/
theorem shapes_eq_of_values : ∀ {xs ys : List Symbol},
    (∀ s ∈ xs, ∀ u ∈ ys, s.value = u.value → s.terminal = u.terminal) →
    xs.map Symbol.value = ys.map Symbol.value → xs.map Symbol.shape = ys.map Symbol.shape
  | [], [], _, _ => rfl
  | s :: xs, u :: ys, hk, h => by
    rw [List.map_cons, List.map_cons, List.cons.injEq] at h
    have hsu := hk s List.mem_cons_self u List.mem_cons_self h.1
    have ih := shapes_eq_of_values (fun x hx y hy => hk x (.tail _ hx) y (.tail _ hy)) h.2
    rw [List.map_cons, List.map_cons, ih, shape_eq_iff.2 ⟨h.1, hsu⟩]

theorem shapes_renamed {old new : String} {xs ys : List Symbol}
    (h : xs.map Symbol.shape = ys.map Symbol.shape) :
    (xs.map (Symbol.renamed old new)).map Symbol.shape =
      (ys.map (Symbol.renamed old new)).map Symbol.shape := by
  have hmap : ∀ zs : List Symbol, (zs.map (Symbol.renamed old new)).map Symbol.shape =
      (zs.map Symbol.shape).map fun x => (renamed old new x.1, x.2) := by
    intro zs
    rw [List.map_map, List.map_map]
    exact List.map_congr_left fun s _ => by simp [Symbol.shape]
  rw [hmap, hmap, h]

/-- All rules of the name have the same values. -/
def Agreed (rules : List Rule) (name : String) : Prop :=
  ∀ r ∈ rules, ∀ q ∈ rules, r.lhs = name → q.lhs = name → r.values = q.values

namespace Grammar

/-- No terminal of `xs` has the value of a name with a rule, the start name apart. -/
def Apart (g : Grammar) (xs : List Symbol) : Prop :=
  ∀ s ∈ xs, s.terminal = true → ∀ q ∈ g.rules, q.lhs ≠ g.start → q.lhs ≠ s.value

theorem Apart.head {g : Grammar} {x : Symbol} {xs : List Symbol} (h : g.Apart (x :: xs)) :
    x.terminal = true → ∀ q ∈ g.rules, q.lhs ≠ g.start → q.lhs ≠ x.value := h x List.mem_cons_self

theorem Apart.tail {g : Grammar} {x : Symbol} {xs : List Symbol} (h : g.Apart (x :: xs)) :
    g.Apart xs := fun y hy => h y (.tail _ hy)

/-- No string is both a token and a name, the start name apart. -/
structure Unequivocal (g : Grammar) : Prop where
  apart : ∀ r ∈ g.rules, g.Apart r.rhs
  kinds : ∀ r ∈ g.rules, ∀ s ∈ r.rhs, s.terminal = true → ∀ q ∈ g.rules, ∀ u ∈ q.rhs,
    u.terminal = false → u.value ≠ s.value

theorem Inv.apart {g : Grammar} (h : g.Inv) {xs : List Symbol} (hk : Kinded xs) : g.Apart xs := by
  intro s hs ht q hq hqs hql
  have hm := (h.marked_iff hq).2 hqs
  rw [hk s hs, ← hql, hm] at ht
  cases ht

theorem Inv.unequivocal {g : Grammar} (h : g.Inv) : g.Unequivocal where
  apart := fun r hr => h.apart (h.kinds r hr)
  kinds := fun r hr s hs hst q hq u hu hut hv => by
    rw [h.kinds q hq u hu, hv, ← h.kinds r hr s hs, hst] at hut
    cases hut

theorem Inv.agreed {g : Grammar} (h : g.Inv) {name : String} (hs : name ≠ g.start) :
    Agreed g.rules name := by
  rintro r hr q hq rfl hql
  rw [h.one r hr q hq hql.symm hs]

namespace Unequivocal

variable {g : Grammar} {r t : Rule}

theorem shapes_eq (h : g.Unequivocal) {p q : Rule} (hp : p ∈ g.rules) (hq : q ∈ g.rules)
    (hv : p.values = q.values) : p.shapes = q.shapes := by
  refine shapes_eq_of_values (fun s hs u hu hsu => ?_) hv
  cases hst : s.terminal <;> cases hut : u.terminal
  · rfl
  · exact absurd hsu (h.kinds q hq u hu hut p hp s hs hst)
  · exact absurd hsu.symm (h.kinds p hp s hs hst q hq u hu hut)
  · rfl

/-- Only names other than the start name are renamed. -/
theorem ne_start_of_ne (m : Mergeable g.start g.rules r t) (hne : r.lhs ≠ t.lhs) :
    r.lhs ≠ g.start ∧ t.lhs ≠ g.start :=
  ⟨fun hs => hne (hs.trans (m.kind.1 hs).symm), fun hs => hne ((m.kind.2 hs).trans hs.symm)⟩

/-- Renaming leaves the values of terminals alone. -/
theorem renamed_terminal_value (m : Mergeable g.start g.rules r t) {s : Symbol}
    (hs : s.terminal = true → ∀ q ∈ g.rules, q.lhs ≠ g.start → q.lhs ≠ s.value)
    (ht : s.terminal = true) : renamed t.lhs r.lhs s.value = s.value := by
  by_cases hrt : r.lhs = t.lhs
  · rw [hrt, renamed_self]
  · exact renamed_of_ne _ (hs ht t m.mem' (ne_start_of_ne m hrt).2).symm

/-- A rule of a renamed name has the shapes of a rule of the name itself. -/
theorem exists_of_dissolve (h : g.Unequivocal) (m : Mergeable g.start g.rules r t)
    (ha : r.lhs ≠ t.lhs → Agreed g.rules r.lhs) {q : Rule} (hq : q ∈ g.rules) {name : String}
    (hl : q.lhs = renamed t.lhs r.lhs name) :
    ∃ p ∈ g.rules, p.lhs = name ∧ p.shapes = q.shapes := by
  by_cases hn : name = t.lhs
  · rw [hn, renamed_old] at hl
    by_cases hrt : r.lhs = t.lhs
    · exact ⟨q, hq, by rw [hl, hrt, hn], rfl⟩
    · have hv := ha hrt r m.mem q hq rfl hl
      exact ⟨t, m.mem', hn.symm, h.shapes_eq m.mem' hq (m.values.symm.trans hv)⟩
  · exact ⟨q, hq, by rw [hl, renamed_of_ne _ hn], rfl⟩

section
variable (h : g.Unequivocal) (hid : (g.rules.map Rule.id).Nodup)
  (m : Mergeable g.start g.rules r t)
  (ha : r.lhs ≠ t.lhs → Agreed g.rules r.lhs ∧ Agreed g.rules t.lhs)
include h hid m ha

/-- For every rule there is one that stays, of the same shapes and of the renamed name. -/
theorem exists_dissolve {q : Rule} (hq : q ∈ g.rules) :
    ∃ p ∈ g.rules, p.id ≠ t.id ∧ p.lhs = renamed t.lhs r.lhs q.lhs ∧ p.shapes = q.shapes := by
  by_cases hi : q.id = t.id
  · obtain rfl := eq_of_id hid hq m.mem' hi
    exact ⟨r, m.mem, m.ids, (renamed_old ..).symm, h.shapes_eq m.mem hq m.values⟩
  · by_cases hl : q.lhs = t.lhs
    · by_cases hrt : r.lhs = t.lhs
      · exact ⟨q, hq, hi, by rw [hrt, renamed_self], rfl⟩
      · -- the other rules of the name of `t` have the values of `t`
        have hv := (ha hrt).2 t m.mem' q hq rfl hl
        exact ⟨r, m.mem, m.ids, by rw [hl, renamed_old],
          h.shapes_eq m.mem hq (m.values.trans hv)⟩
    · exact ⟨q, hq, hi, (renamed_of_ne _ hl).symm, rfl⟩

theorem unfolds_merge {xs : List Symbol} (hx : g.Apart xs) {f : Forest}
    (hf : Unfolds g.rules xs f) :
    Unfolds (dissolve r.lhs t g.rules) (xs.map (Symbol.renamed t.lhs r.lhs)) f := by
  induction hf with
  | nil => exact .nil
  | @terminal s xs f ht _ ih =>
    have hv := renamed_terminal_value m hx.head ht
    have := Unfolds.terminal (s := s.renamed t.lhs r.lhs) (by rw [Symbol.renamed_terminal, ht])
      (ih hx.tail)
    rwa [Symbol.renamed_value, hv] at this
  | @nonterminal s xs f₁ f₂ q ht hq hl _ _ ih₁ ih₂ =>
    obtain ⟨p, hp, hi, hpl, hps⟩ := h.exists_dissolve hid m ha hq
    rw [List.map_cons]
    refine .nonterminal (by rw [Symbol.renamed_terminal, ht]) (mem_dissolve.2 ⟨p, hp, hi, rfl⟩) ?_
      ((ih₁ (h.apart q hq)).congr (shapes_renamed hps.symm)) (ih₂ hx.tail)
    rw [Rule.rename_lhs, Symbol.renamed_value, hpl, hl]

omit hid in
theorem unfolds_of_merge {ys : List Symbol} {f : Forest}
    (hf : Unfolds (dissolve r.lhs t g.rules) ys f) : ∀ {xs : List Symbol}, g.Apart xs →
    ys = xs.map (Symbol.renamed t.lhs r.lhs) → Unfolds g.rules xs f := by
  induction hf with
  | nil =>
    intro xs _ hxs
    rw [List.map_eq_nil_iff.1 hxs.symm]
    exact .nil
  | terminal ht _ ih =>
    intro xs hx hxs
    obtain ⟨s, xs, rfl, rfl, htl⟩ := List.map_eq_cons_iff.1 hxs.symm
    rw [Symbol.renamed_terminal] at ht
    rw [Symbol.renamed_value, renamed_terminal_value m hx.head ht]
    exact .terminal ht (ih hx.tail htl.symm)
  | nonterminal ht hq' hl _ _ ih₁ ih₂ =>
    intro xs hx hxs
    obtain ⟨s, xs, rfl, rfl, htl⟩ := List.map_eq_cons_iff.1 hxs.symm
    obtain ⟨q, hq, -, rfl⟩ := mem_dissolve.1 hq'
    rw [Symbol.renamed_terminal] at ht
    rw [Rule.rename_lhs, Symbol.renamed_value] at hl
    obtain ⟨p, hp, hpl, hps⟩ := h.exists_of_dissolve m (fun hne => (ha hne).1) hq hl
    exact .nonterminal ht hp hpl ((ih₁ (h.apart q hq) rfl).congr hps.symm) (ih₂ hx.tail htl.symm)

/-- What symbols unfold to is kept up to renaming. -/
theorem unfolds_merge_iff {xs : List Symbol} (hx : g.Apart xs) {f : Forest} :
    Unfolds (dissolve r.lhs t g.rules) (xs.map (Symbol.renamed t.lhs r.lhs)) f ↔
      Unfolds g.rules xs f :=
  ⟨fun hf => h.unfolds_of_merge m ha hf hx rfl, h.unfolds_merge hid m ha hx⟩

/-- A rule that stays spells what it spelled. -/
theorem spells_merge {q : Rule} (hq : q ∈ g.rules) {ws : List String} :
    Spells (dissolve r.lhs t g.rules) (q.rename t.lhs r.lhs).rhs ws ↔ Spells g.rules q.rhs ws := by
  rw [spells_iff, spells_iff, Rule.rename_rhs]
  exact exists_congr fun f => and_congr_left' (h.unfolds_merge_iff hid m ha (h.apart q hq))

theorem language_merge :
    Grammar.language { g with rules := dissolve r.lhs t g.rules } = g.language := by
  ext ws
  constructor
  · rintro ⟨q', hq', hl, hw⟩
    obtain ⟨q, hq, -, rfl⟩ := mem_dissolve.1 hq'
    exact ⟨q, hq, hl, (h.spells_merge hid m ha hq).1 hw⟩
  · rintro ⟨q, hq, hl, hw⟩
    by_cases hi : q.id = t.id
    · -- the alternative that goes has the symbols of one that stays
      obtain rfl := eq_of_id hid hq m.mem' hi
      refine ⟨_, mem_dissolve.2 ⟨r, m.mem, m.ids, rfl⟩, m.kind.2 hl, ?_⟩
      exact (h.spells_merge hid m ha m.mem).2 (hw.congr (h.shapes_eq hq m.mem m.values.symm))
    · exact ⟨_, mem_dissolve.2 ⟨q, hq, hi, rfl⟩, hl, (h.spells_merge hid m ha hq).2 hw⟩

end

end Unequivocal

section
variable {g : Grammar} {r t : Rule}

theorem Inv.agreed_merge (h : g.Inv) (m : Mergeable g.start g.rules r t) (hne : r.lhs ≠ t.lhs) :
    Agreed g.rules r.lhs ∧ Agreed g.rules t.lhs :=
  have hs := Unequivocal.ne_start_of_ne m hne
  ⟨h.agreed hs.1, h.agreed hs.2⟩

theorem Inv.unfolds_merge_iff (h : g.Inv) (m : Mergeable g.start g.rules r t) {xs : List Symbol}
    (hx : Kinded xs) {f : Forest} :
    Unfolds (dissolve r.lhs t g.rules) (xs.map (Symbol.renamed t.lhs r.lhs)) f ↔
      Unfolds g.rules xs f :=
  h.unequivocal.unfolds_merge_iff h.ids m (h.agreed_merge m) (h.apart hx)

theorem Inv.language_merge (h : g.Inv) (m : Mergeable g.start g.rules r t) :
    Grammar.language { g with rules := dissolve r.lhs t g.rules } = g.language :=
  h.unequivocal.language_merge h.ids m (h.agreed_merge m)

end

end Grammar

end GrammarInduction
