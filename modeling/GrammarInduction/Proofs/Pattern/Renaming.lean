import GrammarInduction.Pattern.Basic
import Mathlib.Data.List.Find
import Mathlib.Data.Set.Function

/-!
# Matching under a renaming of values

Matching compares values and does nothing else with them: where `f` tells the values apart, a
pattern matches the values under `f` as it matches the values (`Pattern.match?_map`).
-/

namespace GrammarInduction

variable {f : String → String} {S : Set String}

namespace Bindings

/-- The values under `f`. -/
def map (f : String → String) (b : Bindings) : Bindings := ⟨b.pairs.map fun p => (p.1, f p.2)⟩

/-- All values lie in `S`. -/
def Within (S : Set String) (b : Bindings) : Prop := ∀ p ∈ b.pairs, p.2 ∈ S

theorem value?_map (b : Bindings) (name : String) :
    (b.map f).value? name = (b.value? name).map f := by
  simp only [value?, map, List.find?_map, Option.map_map]
  rfl

section
variable (hf : Set.InjOn f S) {b : Bindings} (hb : b.Within S) {v : String} (hv : v ∈ S)
include hf hb hv

theorem holder?_map : (b.map f).holder? (f v) = b.holder? v := by
  have hfind : b.pairs.find? (fun p => f p.2 == f v) = b.pairs.find? (·.2 == v) := by
    refine List.find?_congr fun p hp => ?_
    rw [Bool.eq_iff_iff, beq_iff_eq, beq_iff_eq, hf.eq_iff (hb p hp) hv]
  simp only [holder?, map, List.find?_map, Option.map_map, ← hfind]
  rfl

theorem unify_map (name : String) :
    (b.map f).unify name (f v) = (b.unify name v).map (Bindings.map f) := by
  unfold unify
  rw [value?_map, holder?_map hf hb hv]
  cases hbound : b.value? name with
  | none => cases b.holder? v <;> simp [Except.map, map]
  | some bound =>
    obtain ⟨p, hp, rfl⟩ := Option.map_eq_some_iff.1 hbound
    have hiff := hf.eq_iff (hb p (List.mem_of_find?_eq_some hp)) hv
    by_cases heq : p.2 = v
    · simp [heq, Except.map]
    · simp [heq, mt hiff.1 heq, Except.map]

end

theorem Within.unify {b b' : Bindings} (hb : b.Within S) {v : String} (hv : v ∈ S) {name : String}
    (h : b.unify name v = .ok b') : b'.Within S := by
  unfold Bindings.unify at h
  split at h
  · split at h
    · cases h
      exact hb
    · cases h
  · split at h
    · cases h
    · cases h
      intro p hp
      rcases List.mem_append.1 hp with hp | hp
      · exact hb p hp
      · rwa [List.mem_singleton.1 hp]

end Bindings

namespace Pattern

variable (hf : Set.InjOn f S)
include hf

theorem wildcardsFrom_map : ∀ {items : List PatternItem} {values : List String} {b : Bindings}
    {i : Nat}, b.Within S → (∀ v ∈ values, v ∈ S) →
    wildcardsFrom (b.map f) i items (values.map f) = wildcardsFrom b i items values
  | [], _, _, _, _, _ => by simp [wildcardsFrom]
  | _ :: _, [], _, _, _, _ => by simp [wildcardsFrom]
  | .wildcard :: items, v :: values, b, i, hb, hv => by
    simp only [List.map_cons, wildcardsFrom, wildcardsFrom_map hb fun w hw => hv w (.tail _ hw)]
  | .var name :: items, v :: values, b, i, hb, hv => by
    have hunify := Bindings.unify_map hf hb (hv v List.mem_cons_self) name
    simp only [List.map_cons, wildcardsFrom, hunify]
    cases hu : b.unify name v with
    | error e => rfl
    | ok b' =>
      exact wildcardsFrom_map (hb.unify (hv v List.mem_cons_self) hu) fun w hw => hv w (.tail _ hw)

/-- A pattern matches the values under `f` where it matches the values. -/
theorem match?_map (p : Pattern) {values : List String} (hv : ∀ v ∈ values, v ∈ S) :
    p.match? (values.map f) =
      (p.match? values).map fun m => ⟨m.values.map f, m.wildcards⟩ := by
  have hwild := @wildcardsFrom_map f S hf p.items values {} 0 nofun hv
  have hempty : Bindings.map f {} = {} := rfl
  rw [hempty] at hwild
  unfold match?
  split
  · rfl
  · rw [hwild, Option.map_map]
    simp only [Function.comp_def, List.map_take]

end Pattern

end GrammarInduction
