import GrammarInduction.Proofs.Grammar.Structure
import GrammarInduction.Proofs.Induction.Iteration
import Mathlib.Algebra.Order.BigOperators.Group.List
import Mathlib.Algebra.Order.Ring.Nat
import Mathlib.Data.List.Nodup

/-!
# Induction terminates

A rule weighs twice its length, less three, or less two if it belongs to the start name. A hit of
`n` values makes a rule lighter by `2 * n - 2`, and the new rule weighs one less than that. Only
one name that is handed out can be the start name; its rule is heavier by one, which the grammar
pays in advance. So a promotion makes the grammar lighter by the number of new rules
(`Promotes.potential`), and the potential, twice the weight and the number of rules, drops with
every iteration that changes a rule (`Engine.step_potential`).
-/

namespace GrammarInduction

/-! ## Weights -/

/-- The weight of a rule (module doc). -/
def Rule.weight (start : String) (r : Rule) : Nat :=
  2 * r.rhs.length - if r.lhs = start then 2 else 3

section
variable {start : String} {target : List String} {new : List Rule}

/-- Every hit makes a rule lighter by the same amount. -/
theorem weight_becomes {r r' : Rule} (ht : 2 ≤ target.length)
    (hb : r.Becomes start target new r') :
    r'.weight start + hits (r.segments start target) * (2 * target.length - 2) =
      r.weight start := by
  obtain ⟨t, htt⟩ : ∃ t, target.length = t + 1 := ⟨target.length - 1, by omega⟩
  have hlen := @length_segments start target r
  have hle : hits (r.segments start target) ≤ r'.rhs.length :=
    hb.rhs.length_eq ▸ List.countP_le_length
  rw [hb.rhs.length_eq, htt, Nat.mul_add_one] at hlen
  have hmul : hits (r.segments start target) * (2 * (t + 1) - 2) =
      2 * (hits (r.segments start target) * t) := by
    rw [show 2 * (t + 1) - 2 = 2 * t by omega, Nat.mul_left_comm]
  rw [Rule.weight, Rule.weight, hb.lhs, htt, hmul]
  by_cases hno : hits (r.segments start target) = 0
  · rw [hno] at hlen ⊢
    omega
  · -- what is left of a rule that is longer than the target has two symbols at least
    obtain ⟨body, hbody⟩ := exists_hit hno
    have hcut := isCut_iff.1 (hit_of_mem_segments hbody).2.2
    have hone : hits (r.segments start target) * t = t ∨ 2 ≤ hits (r.segments start target) := by
      by_cases h : hits (r.segments start target) = 1
      · exact .inl (by rw [h, Nat.one_mul])
      · exact .inr (by omega)
    by_cases hs : r.lhs = start
    · rw [if_pos hs]
      omega
    · have hlt := hcut.resolve_right fun h => hs h.2
      rw [if_neg hs]
      omega

theorem sum_weight_becomes (ht : 2 ≤ target.length) {rules old : List Rule}
    (h : List.Forall₂ (Rule.Becomes start target new) rules old) :
    (old.map (Rule.weight start)).sum +
        (rules.map fun r => hits (r.segments start target)).sum * (2 * target.length - 2) =
      (rules.map (Rule.weight start)).sum := by
  induction h with
  | nil => simp
  | cons hb _ ih =>
    have hw := weight_becomes ht hb
    simp only [List.map_cons, List.sum_cons, Nat.add_mul]
    omega

/-- New rules have the length of the target; one of the start name is heavier by one. -/
theorem sum_weight_new (ht : 2 ≤ target.length) : ∀ {new : List Rule},
    (∀ q ∈ new, q.values = target) → (new.map (Rule.weight start)).sum ≤
      new.length * (2 * target.length - 3) + (new.map Rule.lhs).count start
  | [], _ => Nat.zero_le _
  | q :: new, h => by
    have ih := sum_weight_new ht fun p hp => h p (.tail _ hp)
    have hlen : q.rhs.length = target.length := by
      rw [← h q List.mem_cons_self, Rule.values, List.length_map]
    have hw : q.weight start ≤ 2 * target.length - 3 + if q.lhs == start then 1 else 0 := by
      by_cases hs : q.lhs = start
      · simp only [Rule.weight, hlen, hs, if_true, BEq.rfl]
        omega
      · simp [Rule.weight, hlen, hs]
    simp only [List.map_cons, List.sum_cons, List.length_cons, List.count_cons, Nat.add_mul,
      Nat.one_mul]
    omega

/-- Deduplication makes nothing heavier. -/
theorem sum_weight_mergeTwins (start : String) (rules : List Rule) :
    ((mergeTwins start rules).2.map (Rule.weight start)).sum ≤
      (rules.map (Rule.weight start)).sum := by
  have hsub := sublist_of_frame (mergeTwins_frame start rules)
    fun x => 2 * x.2.2 - if x.1 = start then 2 else 3
  exact hsub.sum_le_sum fun _ _ => Nat.zero_le _

end

/-! ## The potential -/

namespace Grammar

/-- The potential of a grammar whose start name is no induced name but that of the number `last`
(module doc). -/
def potential (last : Nat) (g : Grammar) : Nat :=
  2 * ((g.rules.map (Rule.weight g.start)).sum + if g.supply.nextName ≤ last then 1 else 0) +
    g.rules.length

end Grammar

namespace Promotes

variable {target : List String} {g g' : Grammar} {old new : List Rule} {last : Nat}

/-- The start name is handed out once at most, and the potential has provided for it. -/
theorem count_start (h : Promotes target g g' old new)
    (hlast : ∀ n, inducedName n = g.start → n = last) :
    ((new.map Rule.lhs).count g.start + if g'.supply.nextName ≤ last then 1 else 0) ≤
      if g.supply.nextName ≤ last then 1 else 0 := by
  have hone := List.nodup_iff_count_le_one.1 h.nodup_names g.start
  have hnext := h.nextName
  by_cases hm : g.start ∈ new.map Rule.lhs
  · obtain ⟨q, hq, hl⟩ := List.mem_map.1 hm
    obtain ⟨n, hn, hlt, he⟩ := h.name_of_new hq
    have := hlast n (he.symm.trans hl)
    rw [if_pos (show g.supply.nextName ≤ last by omega),
      if_neg (show ¬ g'.supply.nextName ≤ last by omega)]
    omega
  · rw [List.count_eq_zero_of_not_mem hm]
    split <;> split <;> omega

/-- A promotion makes the rules lighter by the number of new rules, those of the start name apart. -/
theorem sum_weight (h : Promotes target g g' old new) (ht : 2 ≤ target.length) :
    (g'.rules.map (Rule.weight g'.start)).sum + new.length ≤
      (g.rules.map (Rule.weight g.start)).sum + (new.map Rule.lhs).count g.start := by
  have hold := sum_weight_becomes ht h.becomes
  have hnew := @sum_weight_new g.start target ht new fun q hq => (h.values_of_new hq).2
  rw [← h.length, show 2 * target.length - 2 = 2 * target.length - 3 + 1 by omega,
    Nat.mul_add_one] at hold
  rw [h.start, h.rules, List.map_append, List.sum_append]
  omega

/-- A promotion pays for every new rule. -/
theorem potential (h : Promotes target g g' old new) (ht : 2 ≤ target.length)
    (hlast : ∀ n, inducedName n = g.start → n = last) :
    g'.potential last + new.length ≤ g.potential last := by
  have hsum := h.sum_weight ht
  have hstart := h.count_start hlast
  have hlen := h.becomes.length_eq
  simp only [Grammar.potential, h.rules, List.length_append] at hsum ⊢
  omega

end Promotes

/-! ## Iterations -/

namespace Engine

/-- A grammar in the middle of an iteration from `g₀`: nothing has changed, or the potential has
dropped. -/
structure Descends (last : Nat) (g₀ g : Grammar) : Prop where
  ids : (g.rules.map Rule.id).Nodup
  ids_lt : ∀ r ∈ g.rules, r.id < g.supply.nextRule
  start : g.start = g₀.start
  potential : g.rules = g₀.rules ∧ g.potential last ≤ g₀.potential last ∨
    g.potential last < g₀.potential last

theorem Descends.promote {last : Nat} {g₀ g g' : Grammar} {target : List String}
    {old new : List Rule} (h : Descends last g₀ g) (ht : 2 ≤ target.length)
    (hlast : ∀ n, inducedName n = g₀.start → n = last) (hp : Promotes target g g' old new) :
    Descends last g₀ g' := by
  refine ⟨hp.nodup_ids h.ids h.ids_lt, hp.ids_lt h.ids_lt, hp.start.trans h.start, ?_⟩
  have hpot := hp.potential ht (h.start ▸ hlast)
  by_cases hnew : new = []
  · rw [hp.eq_rules hnew]
    rw [hnew] at hpot
    exact h.potential.imp (fun ⟨hr, hle⟩ => ⟨hr, Nat.le_trans hpot hle⟩) (Nat.lt_of_le_of_lt hpot)
  · have hpos := List.length_pos_iff.2 hnew
    refine .inr ?_
    rcases h.potential with ⟨-, hle⟩ | hlt <;> omega

/-- Deduplication that changes something drops the potential. -/
theorem Descends.deduplicate {last : Nat} {g₀ g : Grammar} (h : Descends last g₀ g) :
    Descends last g₀ { g with rules := (mergeTwins g.start g.rules).2 } := by
  refine ⟨h.ids.sublist (ids_mergeTwins g.start g.rules), ids_lt_mergeTwins h.ids_lt, h.start, ?_⟩
  have hw := sum_weight_mergeTwins g.start g.rules
  rcases mergeTwins_eq_or_lt g.start g.rules with he | hlt
  · rw [he]
    exact h.potential
  · refine .inr ?_
    have hpot : Grammar.potential last { g with rules := (mergeTwins g.start g.rules).2 } <
        g.potential last := by
      simp only [Grammar.potential]
      omega
    rcases h.potential with ⟨-, hle⟩ | hlt' <;> omega

theorem config_of_step {e e' : Engine} {changed : Bool} (h : e.step = .ok (changed, e')) :
    e'.config = e.config := by
  simp only [step, bind, Except.bind] at h
  split at h
  · cases h
  · cases h
    rfl

theorem atCap_of_no_cap {e : Engine} (h : e.config.maxIterations = 0) : e.atCap = false := by
  simp [atCap, h]

/-- A run goes on after a change that has not reached the cap. -/
theorem runWithin_succ {e e' : Engine} (h : e.step = .ok (true, e')) (hat : e'.atCap = false)
    (budget : Nat) : runWithin (budget + 1) e = runWithin budget e' := by
  simp only [runWithin, h, bind, Except.bind, hat]
  rfl

end Engine

end GrammarInduction
