import GrammarInduction.Pattern.Basic
import GrammarInduction.Proofs.Pattern.Bindings
import Mathlib.Data.List.Basic

/-!
# What a pattern matches

A pattern fits values if there are as many of them as it has items at least, and its variables are
equal exactly where the values in their positions are (`Pattern.Fits`). The scan from left to right
decides this condition on all pairs of positions, as the variables read so far are related one to
one to their values (`Pattern.wildcardsFrom_eq_some_iff`). It gives the values in the positions of
the items, and the positions of the wildcards (`Pattern.matched_front`).
-/

namespace GrammarInduction

namespace Pattern

/-- The variables with the values in their positions. -/
def readings : List PatternItem → List String → List (String × String)
  | .var name :: items, value :: values => (name, value) :: readings items values
  | .wildcard :: items, _ :: values => readings items values
  | _, _ => []

/-- The positions of the wildcards, where the items begin at position `i`. -/
def wildcardPositions (i : Nat) : List PatternItem → List Nat
  | [] => []
  | .wildcard :: items => i :: wildcardPositions (i + 1) items
  | .var _ :: items => wildcardPositions (i + 1) items

theorem mem_readings_iff {x v : String} : ∀ {items : List PatternItem} {values : List String},
    (x, v) ∈ readings items values ↔
      ∃ i : Nat, items[i]? = some (.var x) ∧ values[i]? = some v
  | [], _ => by simp [readings]
  | .var _ :: _, [] => by simp [readings]
  | .wildcard :: _, [] => by simp [readings]
  | .var name :: items, value :: values => by
    conv_rhs => rw [← Nat.or_exists_add_one]
    rw [readings, List.mem_cons, mem_readings_iff]
    simp [eq_comm]
  | .wildcard :: items, value :: values => by
    conv_rhs => rw [← Nat.or_exists_add_one]
    rw [readings, mem_readings_iff]
    simp

theorem mem_wildcardPositions_iff {k : Nat} : ∀ {items : List PatternItem} {i : Nat},
    k ∈ wildcardPositions i items ↔ ∃ j : Nat, items[j]? = some .wildcard ∧ k = i + j
  | [], _ => by simp [wildcardPositions]
  | .wildcard :: items, i => by
    conv_rhs => rw [← Nat.or_exists_add_one]
    rw [wildcardPositions, List.mem_cons, mem_wildcardPositions_iff]
    simp [Nat.add_assoc, Nat.add_comm 1]
  | .var _ :: items, i => by
    conv_rhs => rw [← Nat.or_exists_add_one]
    rw [wildcardPositions, mem_wildcardPositions_iff]
    simp [Nat.add_assoc, Nat.add_comm 1]

/-- The positions ascend. -/
theorem pairwise_wildcardPositions : ∀ (items : List PatternItem) (i : Nat),
    (wildcardPositions i items).Pairwise (· < ·)
  | [], _ => .nil
  | .wildcard :: items, i => by
    refine .cons (fun k hk => ?_) (pairwise_wildcardPositions items (i + 1))
    obtain ⟨j, -, rfl⟩ := mem_wildcardPositions_iff.1 hk
    omega
  | .var _ :: items, i => pairwise_wildcardPositions items (i + 1)

/-- From bindings that are one to one, the walk succeeds if there are values for all items and the
bindings stay one to one with all that is read. -/
theorem wildcardsFrom_eq_some_iff : ∀ {items : List PatternItem} {values : List String}
    {b : Bindings} {i : Nat} {w : List Nat}, OneToOne b.pairs →
    (wildcardsFrom b i items values = some w ↔ items.length ≤ values.length ∧
      OneToOne (readings items values ++ b.pairs) ∧ w = wildcardPositions i items)
  | [], values, b, i, w, hb => by
    simp [wildcardsFrom, readings, wildcardPositions, hb, eq_comm]
  | item :: items, [], b, i, w, _ => by
    simp [wildcardsFrom]
  | .wildcard :: items, value :: values, b, i, w, hb => by
    rw [wildcardsFrom, Option.map_eq_some_iff]
    simp only [wildcardsFrom_eq_some_iff hb, readings, wildcardPositions, List.length_cons,
      Nat.add_le_add_iff_right, and_assoc, exists_and_left, exists_eq_left, eq_comm (b := w)]
  | .var name :: items, value :: values, b, i, w, hb => by
    rw [wildcardsFrom, readings, wildcardPositions]
    cases hu : b.unify name value with
    | error e =>
      -- what cannot be bound now is not one to one with what is read later either
      have hno : ¬ OneToOne ((name, value) :: readings items values ++ b.pairs) := by
        intro h
        have hcons : OneToOne ((name, value) :: b.pairs) := h.mono fun p hp => by
          rcases List.mem_cons.1 hp with rfl | hp
          · exact List.mem_cons_self
          · exact List.mem_append_right _ hp
        rw [(Bindings.unify_eq_ok_iff hb).2 ⟨hcons, rfl⟩] at hu
        cases hu
      exact iff_of_false nofun fun h => hno h.2.1
    | ok b' =>
      have hmem := Bindings.mem_unify hb hu
      have hb' : OneToOne b'.pairs :=
        ((OneToOne.congr hmem).2 ((Bindings.unify_eq_ok_iff hb).1 hu).1)
      have hpairs : OneToOne (readings items values ++ b'.pairs) ↔
          OneToOne ((name, value) :: readings items values ++ b.pairs) := by
        refine OneToOne.congr fun p => ?_
        rw [List.mem_append, hmem, List.mem_cons, List.cons_append, List.mem_cons, List.mem_append]
        exact or_left_comm
      simp only [wildcardsFrom_eq_some_iff hb', hpairs, List.length_cons,
        Nat.add_le_add_iff_right]

/-- There are values for all items, and variables are equal where the values in their positions
are. -/
structure Fits (p : Pattern) (values : List String) : Prop where
  length : p.items.length ≤ values.length
  agree : ∀ (i j : Nat) x y v w, p.items[i]? = some (.var x) → p.items[j]? = some (.var y) →
    values[i]? = some v → values[j]? = some w → (x = y ↔ v = w)

theorem oneToOne_readings_iff {items : List PatternItem} {values : List String} :
    OneToOne (readings items values) ↔ ∀ (i j : Nat) x y v w, items[i]? = some (.var x) →
      items[j]? = some (.var y) → values[i]? = some v → values[j]? = some w → (x = y ↔ v = w) := by
  constructor
  · intro h i j x y v w hx hy hv hw
    exact h _ (mem_readings_iff.2 ⟨i, hx, hv⟩) _ (mem_readings_iff.2 ⟨j, hy, hw⟩)
  · rintro h ⟨x, v⟩ hp ⟨y, w⟩ hq
    obtain ⟨i, hx, hv⟩ := mem_readings_iff.1 hp
    obtain ⟨j, hy, hw⟩ := mem_readings_iff.1 hq
    exact h i j x y v w hx hy hv hw

variable {p : Pattern} {values : List String}

theorem match?_eq_some_iff (hne : p.items ≠ []) {m : PatternMatch} :
    p.match? values = some m ↔
      p.Fits values ∧ m = ⟨values.take p.items.length, wildcardPositions 0 p.items⟩ := by
  have hempty : OneToOne (Bindings.pairs {}) := nofun
  have hfits : p.Fits values ↔ p.items.length ≤ values.length ∧
      OneToOne (readings p.items values ++ Bindings.pairs {}) := by
    rw [show Bindings.pairs {} = [] from rfl, List.append_nil, oneToOne_readings_iff]
    exact ⟨fun h => ⟨h.length, h.agree⟩, fun h => ⟨h.1, h.2⟩⟩
  rw [match?, if_neg hne, Option.map_eq_some_iff, hfits]
  simp only [wildcardsFrom_eq_some_iff hempty, and_assoc, exists_and_left, exists_eq_left,
    eq_comm (b := m)]

/-- The positions of wildcards are positions of values, none of which is left out. -/
theorem wildcardValues_map_some {m : PatternMatch} (h : ∀ i ∈ m.wildcards, i < m.values.length) :
    m.wildcardValues.map some = m.wildcards.map (m.values[·]?) := by
  have hsome : ∀ i ∈ m.wildcards, ∃ v, m.values[i]? = some v := fun i hi =>
    ⟨_, List.getElem?_eq_getElem (h i hi)⟩
  rw [PatternMatch.wildcardValues]
  generalize m.wildcards = w at hsome ⊢
  induction w with
  | nil => rfl
  | cons i w ih =>
    obtain ⟨v, hv⟩ := hsome i List.mem_cons_self
    rw [List.filterMap_cons_some hv, List.map_cons, List.map_cons, hv,
      ih fun j hj => hsome j (.tail _ hj)]

/-- A match is not empty if and only if the pattern fits. It takes as many of the first values as
the pattern has items, and the positions of the wildcards in ascending order, each of which is the
position of a value. Where the pattern does not fit, nothing is taken. -/
theorem matched_front (hne : p.items ≠ []) (values : List String) :
    let m := (p.match? values).getD {}
    (m.values ≠ [] ↔ p.Fits values) ∧
      (p.Fits values → m.values = values.take p.items.length ∧ m.wildcards.Pairwise (· < ·) ∧
        (∀ i, i ∈ m.wildcards ↔ p.items[i]? = some .wildcard) ∧
        m.wildcardValues.map some = m.wildcards.map (m.values[·]?)) ∧
      (¬ p.Fits values → m = {}) := by
  by_cases hfits : p.Fits values
  · have hmatch : p.match? values = some _ := (match?_eq_some_iff hne).2 ⟨hfits, rfl⟩
    have hmem : ∀ i, i ∈ wildcardPositions 0 p.items ↔ p.items[i]? = some .wildcard := by
      simp [mem_wildcardPositions_iff]
    have hpos := List.length_pos_iff.2 hne
    have hlen := hfits.length
    have htake : values.take p.items.length ≠ [] := by
      rw [← List.length_pos_iff, List.length_take]
      omega
    have hbound : ∀ i ∈ wildcardPositions 0 p.items, i < (values.take p.items.length).length := by
      intro i hi
      obtain ⟨hi, -⟩ := List.getElem?_eq_some_iff.1 ((hmem i).1 hi)
      rw [List.length_take]
      omega
    rw [hmatch]
    exact ⟨iff_of_true htake hfits, fun _ => ⟨rfl, pairwise_wildcardPositions p.items 0, hmem,
      wildcardValues_map_some hbound⟩, fun hno => absurd hfits hno⟩
  · have hmatch : p.match? values = none := by
      rw [Option.eq_none_iff_forall_ne_some]
      exact fun m hm => hfits ((match?_eq_some_iff hne).1 hm).1
    rw [hmatch]
    exact ⟨iff_of_false (fun h => h rfl) hfits, fun h => absurd h hfits, fun _ => rfl⟩

/-- A variable that stands twice, and a wildcard that takes what another variable holds. -/
def crossed : Pattern where
  items := [.var "X", .wildcard, .var "X", .var "Y", .wildcard]
  fire := .signed false (Binary64.nearest 1 1)
  wild := .signed false (Binary64.nearest 1 1)

theorem matched_front_crossed :
    crossed.items ≠ [] ∧
      let m := (crossed.match? ["a", "b", "a", "b", "a", "c"]).getD {}
      m = ⟨["a", "b", "a", "b", "a"], [1, 4]⟩ ∧
        (m.values ≠ [] ↔ crossed.Fits ["a", "b", "a", "b", "a", "c"]) ∧
        (crossed.Fits ["a", "b", "a", "b", "a", "c"] →
          m.values = ["a", "b", "a", "b", "a"] ∧ m.wildcards.Pairwise (· < ·) ∧
            (∀ i, i ∈ m.wildcards ↔ crossed.items[i]? = some .wildcard) ∧
            m.wildcardValues.map some = m.wildcards.map (m.values[·]?)) ∧
        (¬ crossed.Fits ["a", "b", "a", "b", "a", "c"] → m = {}) :=
  ⟨by decide, by decide, matched_front (by decide) ["a", "b", "a", "b", "a", "c"]⟩

end Pattern

end GrammarInduction
