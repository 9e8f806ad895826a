import GrammarInduction.Proofs.Grammar.InducedName
import GrammarInduction.Proofs.Grammar.Language
import GrammarInduction.Proofs.Grammar.Merge
import Mathlib.Order.WellFounded

/-!
# Well-formed grammars

`Grammar.WellFormed` is what users of a grammar rely on. `Grammar.Inv` is the invariant that implies
it: in addition, induced rules carry distinct names that the supply has handed out, ids are
distinct, and references descend in a well-founded order. A single merge keeps the invariant
(`Inv.merge`).
-/

namespace GrammarInduction

/-- A rule of `A` has the non-terminal `B` on its right-hand side. -/
def Refers (rules : List Rule) (A B : String) : Prop :=
  ∃ r ∈ rules, r.lhs = A ∧ ∃ s ∈ r.rhs, s.terminal = false ∧ s.value = B

/-- The kinds of symbols are those of their values: `$` begins the non-terminals. -/
def Kinded (xs : List Symbol) : Prop := ∀ s ∈ xs, s.terminal = !marked s.value

theorem Kinded.head {x : Symbol} {xs : List Symbol} (h : Kinded (x :: xs)) :
    x.terminal = !marked x.value := h x List.mem_cons_self

theorem Kinded.tail {x : Symbol} {xs : List Symbol} (h : Kinded (x :: xs)) : Kinded xs :=
  fun y hy => h y (.tail _ hy)

theorem Kinded.shapes_eq {xs : List Symbol} (h : Kinded xs) :
    xs.map Symbol.shape = (xs.map Symbol.value).map fun v => (v, !marked v) := by
  rw [List.map_map]
  exact List.map_congr_left fun s hs => by rw [Symbol.shape, h s hs]; rfl

theorem Kinded.shapes_congr {xs ys : List Symbol} (hx : Kinded xs) (hy : Kinded ys)
    (h : xs.map Symbol.value = ys.map Symbol.value) :
    xs.map Symbol.shape = ys.map Symbol.shape := by rw [hx.shapes_eq, hy.shapes_eq, h]

namespace Grammar

/-- Every right-hand side has symbols, of the kinds of their values; a non-terminal has one rule and
is not the start name; every rule of another name is referred to; and no name refers to itself,
directly or through others. -/
structure WellFormed (g : Grammar) : Prop where
  rhs_ne : ∀ r ∈ g.rules, r.rhs ≠ []
  kinds : ∀ r ∈ g.rules, Kinded r.rhs
  single : ∀ r ∈ g.rules, ∀ s ∈ r.rhs, s.terminal = false → ∃ q, g.alternatives s.value = [q]
  start : ∀ r ∈ g.rules, ∀ s ∈ r.rhs, s.terminal = false → s.value ≠ g.start
  used : ∀ q ∈ g.rules, q.lhs ≠ g.start → ∃ A, Refers g.rules A q.lhs
  acyclic : ∀ A, ¬ Relation.TransGen (Refers g.rules) A A

/-- The invariant of induction (module doc). -/
structure Inv (g : Grammar) : Prop where
  start : marked g.start = false
  ids : (g.rules.map Rule.id).Nodup
  ids_lt : ∀ r ∈ g.rules, r.id < g.supply.nextRule
  names : ∀ r ∈ g.rules, r.lhs ≠ g.start → ∃ n < g.supply.nextName, r.lhs = inducedName n
  one : ∀ r ∈ g.rules, ∀ q ∈ g.rules, r.lhs = q.lhs → r.lhs ≠ g.start → r = q
  rhs_ne : ∀ r ∈ g.rules, r.rhs ≠ []
  kinds : ∀ r ∈ g.rules, Kinded r.rhs
  values : ∀ r ∈ g.rules, ∀ v ∈ r.values, '\x1f' ∉ v.toList
  defined : ∀ r ∈ g.rules, ∀ s ∈ r.rhs, s.terminal = false → ∃ q ∈ g.rules, q.lhs = s.value
  used : ∀ q ∈ g.rules, q.lhs ≠ g.start → ∃ A, Refers g.rules A q.lhs
  descends : WellFounded (Function.swap (Refers g.rules))

namespace Inv

variable {g : Grammar}

theorem separable (h : g.Inv) : Separable g.start g.rules := by
  refine ⟨h.rhs_ne, h.values, fun r hr hs => ?_⟩
  obtain ⟨n, -, hn⟩ := h.names r hr hs
  rw [hn]
  exact separator_notMem_inducedName n

theorem marked_iff (h : g.Inv) {r : Rule} (hr : r ∈ g.rules) :
    marked r.lhs = true ↔ r.lhs ≠ g.start := by
  constructor
  · intro hm hs
    rw [hs, h.start] at hm
    cases hm
  · intro hs
    obtain ⟨n, -, hn⟩ := h.names r hr hs
    rw [hn, marked_inducedName]

/-- Only the start name has no mark, and no non-terminal is without one. -/
theorem ne_start (h : g.Inv) {s : Symbol} (hk : s.terminal = !marked s.value)
    (ht : s.terminal = false) : s.value ≠ g.start := by
  intro hs
  rw [hs, h.start, ht] at hk
  cases hk

theorem wellFormed (h : g.Inv) : g.WellFormed where
  rhs_ne := h.rhs_ne
  kinds := h.kinds
  start := fun r hr s hs ht => h.ne_start (h.kinds r hr s hs) ht
  used := h.used
  single := by
    intro r hr s hs ht
    obtain ⟨q, hq, hl⟩ := h.defined r hr s hs ht
    have hne := h.ne_start (h.kinds r hr s hs) ht
    have hall : ∀ p ∈ g.alternatives s.value, p = q := by
      intro p hp
      obtain ⟨hp, hpl⟩ := List.mem_filter.1 hp
      have hpl : p.lhs = s.value := by simpa using hpl
      exact h.one p hp q hq (hpl.trans hl.symm) (hpl ▸ hne)
    have hmem : q ∈ g.alternatives s.value := List.mem_filter.2 ⟨hq, by simpa using hl⟩
    have hnd : (g.alternatives s.value).Nodup := (List.Nodup.of_map _ h.ids).filter _
    rw [List.eq_replicate_of_mem hall] at hmem hnd ⊢
    have hlen : (g.alternatives s.value).length = 1 := by
      have h₁ := List.nodup_replicate.1 hnd
      have h₂ := (List.mem_replicate.1 hmem).1
      omega
    exact ⟨q, by rw [hlen]; rfl⟩
  acyclic := by
    intro A hA
    exact h.descends.transGen.irrefl.irrefl A (Relation.transGen_swap.2 hA)

/-! ## Merges keep the invariant -/

section
variable {r t : Rule} (h : g.Inv) (m : Mergeable g.start g.rules r t)
include h m

theorem marked_renamed (v : String) : marked (renamed t.lhs r.lhs v) = marked v := by
  by_cases hvt : v = t.lhs
  · rw [hvt, renamed_old, Bool.eq_iff_iff, h.marked_iff m.mem, h.marked_iff m.mem']
    exact not_congr m.kind
  · rw [renamed_of_ne _ hvt]

theorem kinded_renamed {xs : List Symbol} (hk : Kinded xs) :
    Kinded (xs.map (Symbol.renamed t.lhs r.lhs)) := by
  intro s' hs'
  obtain ⟨s, hs, rfl⟩ := List.mem_map.1 hs'
  rw [Symbol.renamed_terminal, Symbol.renamed_value, h.marked_renamed m, hk s hs]

/-- The two rules have the same shapes. -/
theorem shapes_eq : t.shapes = r.shapes :=
  (h.kinds t m.mem').shapes_congr (h.kinds r m.mem) m.values.symm

/-- A rule of another name than `t` stays. -/
theorem mem_dissolve_of_ne {q : Rule} (hq : q ∈ g.rules) (hqt : q.lhs ≠ t.lhs) :
    q.rename t.lhs r.lhs ∈ dissolve r.lhs t g.rules := by
  refine mem_dissolve.2 ⟨q, hq, fun hi => hqt ?_, rfl⟩
  rw [eq_of_id h.ids hq m.mem' hi]

/-- No rule that stays has the name of `t`, unless it is the start name. -/
theorem ne_of_mem_dissolve {q : Rule} (hq : q ∈ g.rules) (hi : q.id ≠ t.id)
    (hs : q.lhs ≠ g.start) : q.lhs ≠ t.lhs := by
  intro hl
  exact hi (congrArg Rule.id (h.one q hq t m.mem' hl hs))

theorem defined_merge {q : Rule} (hq : q ∈ g.rules) {s : Symbol} (hs : s ∈ q.rhs)
    (ht : s.terminal = false) :
    ∃ p ∈ dissolve r.lhs t g.rules, p.lhs = renamed t.lhs r.lhs s.value := by
  obtain ⟨p, hp, hl⟩ := h.defined q hq s hs ht
  by_cases hst : s.value = t.lhs
  · exact ⟨_, mem_dissolve.2 ⟨r, m.mem, m.ids, rfl⟩, by rw [hst, renamed_old, Rule.rename_lhs]⟩
  · refine ⟨_, h.mem_dissolve_of_ne m hp (hl ▸ hst), ?_⟩
    rw [Rule.rename_lhs, renamed_of_ne _ hst, hl]

theorem used_merge {q : Rule} (hq : q ∈ g.rules) (hi : q.id ≠ t.id) (hs : q.lhs ≠ g.start) :
    ∃ A, Refers (dissolve r.lhs t g.rules) A q.lhs := by
  have hqt := h.ne_of_mem_dissolve m hq hi hs
  have hstay : ∀ p ∈ g.rules, p.id ≠ t.id → ∀ s ∈ p.rhs, s.terminal = false →
      s.value = q.lhs → Refers (dissolve r.lhs t g.rules) p.lhs q.lhs := by
    intro p hp hpt s hs ht hv
    refine ⟨_, mem_dissolve.2 ⟨p, hp, hpt, rfl⟩, rfl, s.renamed t.lhs r.lhs,
      List.mem_map_of_mem hs, ?_, ?_⟩
    · rw [Symbol.renamed_terminal, ht]
    · rw [Symbol.renamed_value, hv, renamed_of_ne _ hqt]
  obtain ⟨A, p, hp, -, s, hs, ht, hv⟩ := h.used q hq hs
  by_cases hpt : p.id = t.id
  · -- the reference in `t` goes, the one in `r` stays
    obtain rfl := eq_of_id h.ids hp m.mem' hpt
    obtain ⟨s', hs', hv', ht'⟩ := exists_shape (h.shapes_eq m) hs
    exact ⟨_, hstay r m.mem m.ids s' hs' (ht'.trans ht) (hv'.trans hv)⟩
  · exact ⟨_, hstay p hp hpt s hs ht hv⟩

/-- The order of names is kept up to renaming. -/
theorem descends_merge : WellFounded (Function.swap (Refers (dissolve r.lhs t g.rules))) := by
  -- what a name refers to afterwards is the renamed value of what it referred to
  have hacc : ∀ A, Acc (Function.swap (Refers (dissolve r.lhs t g.rules)))
      (renamed t.lhs r.lhs A) := by
    intro A
    induction A using h.descends.induction with
    | _ A ih =>
    refine ⟨_, fun B hB => ?_⟩
    obtain ⟨q', hq', hl, s', hs', ht, rfl⟩ := hB
    obtain ⟨q, hq, hi, rfl⟩ := mem_dissolve.1 hq'
    rw [Rule.rename_rhs] at hs'
    obtain ⟨s, hs, rfl⟩ := List.mem_map.1 hs'
    rw [Symbol.renamed_terminal] at ht
    rw [Symbol.renamed_value]
    rw [Rule.rename_lhs] at hl
    by_cases hA : A = t.lhs
    · rw [hA, renamed_old] at hl
      by_cases hrs : r.lhs = g.start
      · exact ih s.value ⟨q, hq, by rw [hA, hl, hrs, m.kind.1 hrs], s, hs, ht, rfl⟩
      · obtain rfl := h.one q hq r m.mem hl (hl ▸ hrs)
        obtain ⟨u, hu, huv, hut⟩ := exists_shape (h.shapes_eq m).symm hs
        exact huv ▸ ih u.value ⟨t, m.mem', hA.symm, u, hu, hut.trans ht, rfl⟩
    · rw [renamed_of_ne _ hA] at hl
      exact ih s.value ⟨q, hq, hl, s, hs, ht, rfl⟩
  refine ⟨fun A => ?_⟩
  by_cases hA : A = t.lhs
  · by_cases hts : t.lhs = g.start
    · have := hacc t.lhs
      rw [renamed_old] at this
      rwa [hA, hts, ← m.kind.2 hts]
    · -- no rule of the name of `t` is left
      refine ⟨_, fun B hB => ?_⟩
      obtain ⟨q', hq', hl, -⟩ := hB
      obtain ⟨q, hq, hi, rfl⟩ := mem_dissolve.1 hq'
      have hl : q.lhs = t.lhs := hl.trans hA
      exact absurd hl (h.ne_of_mem_dissolve m hq hi (hl ▸ hts))
  · have := hacc A
    rwa [renamed_of_ne _ hA] at this

theorem merge : Inv { g with rules := dissolve r.lhs t g.rules } where
  start := h.start
  ids := nodup_ids_dissolve h.ids _ _
  rhs_ne := (h.separable.dissolve m).rhs_ne
  values := (h.separable.dissolve m).values
  descends := h.descends_merge m
  ids_lt := by
    intro q' hq'
    obtain ⟨q, hq, -, rfl⟩ := mem_dissolve.1 hq'
    exact h.ids_lt q hq
  names := by
    intro q' hq' hs
    obtain ⟨q, hq, -, rfl⟩ := mem_dissolve.1 hq'
    exact h.names q hq hs
  one := by
    intro p' hp' q' hq' hl hs
    obtain ⟨p, hp, -, rfl⟩ := mem_dissolve.1 hp'
    obtain ⟨q, hq, -, rfl⟩ := mem_dissolve.1 hq'
    rw [h.one p hp q hq hl hs]
  kinds := by
    intro q' hq'
    obtain ⟨q, hq, -, rfl⟩ := mem_dissolve.1 hq'
    exact h.kinded_renamed m (h.kinds q hq)
  defined := by
    intro q' hq' s' hs' ht
    obtain ⟨q, hq, -, rfl⟩ := mem_dissolve.1 hq'
    rw [Rule.rename_rhs] at hs'
    obtain ⟨s, hs, rfl⟩ := List.mem_map.1 hs'
    rw [Symbol.renamed_terminal] at ht
    rw [Symbol.renamed_value]
    exact h.defined_merge m hq hs ht
  used := by
    intro q' hq' hs
    obtain ⟨q, hq, hi, rfl⟩ := mem_dissolve.1 hq'
    have := h.used_merge m hq hi hs
    exact this

end

end Inv

end Grammar

end GrammarInduction
