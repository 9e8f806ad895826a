import GrammarInduction.Grammar.Basic
import GrammarInduction.Proofs.Lists
import GrammarInduction.Proofs.Sorting

/-!
# Equality up to the order of the rules

The order of shapes is linear (`Rule.linearLe_shapeLe`), so that sorting takes from the shapes of a
grammar their order and nothing else: two grammars have one structure if their shapes are
permutations of each other (`Grammar.sameStructure_iff_perm`). That is, if there is a bijection
between their rules under which the rules are alike, so that rules count as often as they are there
(`Grammar.sameStructure_iff_bijection`).
-/

namespace GrammarInduction

namespace Rule

/-! ## The order of shapes -/

theorem linearLe_shapeLe : LinearLe shapeLe := linearLe_texts.byText

/-! ## Rules that are alike -/

/-- One name, and right-hand sides of the same values, symbol by symbol. -/
structure Alike (r q : Rule) : Prop where
  lhs : r.lhs = q.lhs
  rhs : List.Forall₂ (fun s t => s.sameValue t = true) r.rhs q.rhs

theorem same_iff_shape {r q : Rule} : r.same q = true ↔ r.shape = q.shape := beq_iff_eq

theorem same_iff_alike {r q : Rule} : r.same q = true ↔ r.Alike q := by
  have hvalues : r.values = q.values ↔
      List.Forall₂ (fun s t => s.sameValue t = true) r.rhs q.rhs := by
    rw [values, values, ← List.forall₂_eq_eq_eq, List.forall₂_map_left_iff,
      List.forall₂_map_right_iff]
    simp only [Symbol.sameValue, beq_iff_eq]
  rw [same_iff_shape, shape, shape, Prod.mk.injEq, hvalues]
  exact ⟨fun ⟨hl, hr⟩ => ⟨hl, hr⟩, fun ⟨hl, hr⟩ => ⟨hl, hr⟩⟩

theorem map_shape_of_alike {rules qs : List Rule} (h : List.Forall₂ Alike rules qs) :
    qs.map shape = rules.map shape :=
  map_eq_of_forall₂ h fun h => (same_iff_shape.1 (same_iff_alike.2 h)).symm

/-- There is a rule of each shape. -/
theorem shape_surjective : Function.Surjective shape := by
  intro ⟨lhs, vs⟩
  refine ⟨⟨lhs, vs.map fun v => ⟨v, true, 0⟩, 0⟩, ?_⟩
  simp [shape, values, Function.comp_def]

theorem countP_same (r : Rule) (rules : List Rule) :
    rules.countP r.same = (rules.map shape).count r.shape := by
  rw [List.count, List.countP_map]
  exact List.countP_congr fun q _ => by
    rw [same_iff_shape, Function.comp_apply, beq_iff_eq, eq_comm]

end Rule

/-! ## Grammars of one structure -/

namespace Grammar

variable {g h h' : Grammar}

/-- Sorting forgets the order and nothing else. -/
theorem sameStructure_iff_perm :
    g.sameStructure h = true ↔ (g.rules.map Rule.shape).Perm (h.rules.map Rule.shape) := by
  rw [sameStructure, Bool.and_eq_true, beq_iff_eq, beq_iff_eq, sortedShapes, sortedShapes,
    Rule.linearLe_shapeLe.mergeSort_eq_iff_perm]
  exact and_iff_right_of_imp fun hperm => by simpa using hperm.length_eq

/-- Whether shapes are permutations of each other can be evaluated without sorting them. -/
theorem sameStructure_eq_isPerm :
    g.sameStructure h = (g.rules.map Rule.shape).isPerm (h.rules.map Rule.shape) := by
  rw [Bool.eq_iff_iff, sameStructure_iff_perm, List.isPerm_iff]

theorem sameStructure_of_rules (hr : g.rules = h.rules) : g.sameStructure h = true :=
  sameStructure_iff_perm.2 (hr ▸ .refl _)

/-- A grammar may be replaced by one of its structure. -/
theorem sameStructure_congr (hs : h.sameStructure h' = true) :
    g.sameStructure h' = g.sameStructure h := by
  rw [sameStructure_iff_perm] at hs
  rw [Bool.eq_iff_iff, sameStructure_iff_perm, sameStructure_iff_perm]
  exact ⟨fun h => h.trans hs.symm, fun h => h.trans hs⟩

/-- Grammars have one structure if a bijection takes each rule to one that is alike; or, what is the
same, if they have the same number of rules like any given one. This is an equivalence, and neither
the order of the rules nor the ids and kinds of symbols matter to it. -/
theorem sameStructure_iff_bijection :
    (∀ r q : Rule, r.same q = true ↔ r.Alike q) ∧
      (∀ g h : Grammar, g.sameStructure h = true ↔ ∃ e : Fin g.rules.length ≃ Fin h.rules.length,
        ∀ i, (g.rules.get i).same (h.rules.get (e i)) = true) ∧
      (∀ g h : Grammar, g.sameStructure h = true ↔
        ∀ r : Rule, g.rules.countP r.same = h.rules.countP r.same) ∧
      Equivalence (fun g h : Grammar => g.sameStructure h = true) ∧
      ∀ (g h h' : Grammar) (qs : List Rule), List.Forall₂ Rule.Alike h.rules qs →
        h'.rules.Perm qs → g.sameStructure h' = g.sameStructure h := by
  refine ⟨fun r q => Rule.same_iff_alike, fun g h => ?_, fun g h => ?_, ⟨fun g => ?_, ?_, ?_⟩, ?_⟩
  · simp only [sameStructure_iff_perm, map_perm_map_iff_exists_equiv, Rule.same_iff_shape]
  · simp only [sameStructure_iff_perm, List.perm_iff_count, Rule.countP_same,
      Rule.shape_surjective.forall]
  · exact sameStructure_of_rules rfl
  · intro g h hs
    rw [sameStructure_iff_perm] at *
    exact hs.symm
  · intro g h h' hs hs'
    rw [sameStructure_iff_perm] at *
    exact hs.trans hs'
  · intro g h h' qs halike hperm
    refine sameStructure_congr (sameStructure_iff_perm.2 ?_)
    have hshapes := hperm.map Rule.shape
    rw [Rule.map_shape_of_alike halike] at hshapes
    exact hshapes.symm

/-- A rule that stands twice, and another one. -/
def doubled : Grammar :=
  ofRules "S" [⟨"S", [⟨"A", false, 0⟩, ⟨"b", true, 1⟩], 0⟩, ⟨"A", [], 1⟩, ⟨"A", [], 1⟩]

/-- The same rules in another order, under other ids and with symbols of other kinds. -/
def doubledBack : Grammar :=
  ofRules "T" [⟨"A", [], 7⟩, ⟨"A", [], 8⟩, ⟨"S", [⟨"A", true, 5⟩, ⟨"b", false, 5⟩], 7⟩]

theorem sameStructure_doubled : ∃ qs, List.Forall₂ Rule.Alike doubled.rules qs ∧
    doubledBack.rules.Perm qs ∧
    ∀ g : Grammar, g.sameStructure doubledBack = g.sameStructure doubled :=
  have halike : List.Forall₂ Rule.Alike doubled.rules
      [⟨"S", [⟨"A", true, 5⟩, ⟨"b", false, 5⟩], 7⟩, ⟨"A", [], 8⟩, ⟨"A", [], 7⟩] :=
    have hsame : List.Forall₂ (fun r q => r.same q = true) doubled.rules _ := by decide
    hsame.imp fun _ _ => Rule.same_iff_alike.1
  have hperm : doubledBack.rules.Perm
      [⟨"S", [⟨"A", true, 5⟩, ⟨"b", false, 5⟩], 7⟩, ⟨"A", [], 8⟩, ⟨"A", [], 7⟩] := by decide
  ⟨_, halike, hperm, fun g => sameStructure_iff_bijection.2.2.2.2 g _ _ _ halike hperm⟩

end Grammar

end GrammarInduction
