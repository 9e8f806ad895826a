import GrammarInduction.Derivation.Basic

/-!
# Draws

A chooser fed by 64-bit numbers, which are listed or come from the SplitMix generator. A draw is
multiplied by the number of alternatives: the upper half of the product is the index, and a draw
whose lower half lies above a bound is passed over so that all indices are equally likely.
-/

namespace GrammarInduction

/-- Where draws come from: a list and then zeros, or the state of a generator. -/
inductive DrawSource where
  | listed (rest : List UInt64)
  | mixing (state : UInt64)
deriving DecidableEq, Repr

/-- The output function of the SplitMix generator. -/
def splitMix (z : UInt64) : UInt64 :=
  let z := (z ^^^ (z >>> 30)) * 0xBF58476D1CE4E5B9
  let z := (z ^^^ (z >>> 27)) * 0x94D049BB133111EB
  z ^^^ (z >>> 31)

namespace DrawSource

def next : DrawSource → UInt64 × DrawSource
  | listed [] => (0, listed [])
  | listed (x :: rest) => (x, listed rest)
  | mixing state =>
    let state := state + 0x9E3779B97F4A7C15
    (splitMix state, mixing state)

/-- A number of draws among which one is accepted: every list ends in zeros, and the generator
yields zero once in each period. -/
def patience : DrawSource → Nat
  | listed rest => rest.length + 1
  | mixing _ => Nat.pow 2 64

end DrawSource

/-- A source and the number of draws taken from it. -/
structure Draws where
  source : DrawSource
  taken : Nat := 0
deriving DecidableEq, Repr

namespace Draws

def next (d : Draws) : UInt64 × Draws :=
  let (x, source) := d.source.next
  (x, ⟨source, d.taken + 1⟩)

/-- The greatest lower half that is accepted for `n` alternatives: one less than `n` shifted to the
top of 64 bits. -/
def bound (n : Nat) : Nat := n * Nat.pow 2 (63 - n.log2) - 1

/-- The upper half of a draw times `n + 1`. -/
def index (n : Nat) (x : UInt64) : Fin (n + 1) :=
  ⟨x.toNat * (n + 1) / Nat.pow 2 64, by
    rw [Nat.div_lt_iff_lt_mul (by decide), Nat.mul_comm]
    exact Nat.mul_lt_mul_of_pos_left x.toNat_lt (Nat.succ_pos n)⟩

/-- Whether a draw is accepted for `n + 1` alternatives. -/
def accepts (n : Nat) (x : UInt64) : Bool :=
  x.toNat * (n + 1) % Nat.pow 2 64 ≤ bound (n + 1)

/-- The index of the first accepted one of the next draws. -/
def pickWithin (n : Nat) : Nat → Draws → Fin (n + 1) × Draws
  | 0, d => (0, d)
  | attempts + 1, d =>
    let (x, d) := d.next
    if accepts n x then (index n x, d) else pickWithin n attempts d

def pick (n : Nat) (d : Draws) : Fin (n + 1) × Draws := pickWithin n d.source.patience d

/-- Choice by draws. -/
def chooser : Chooser Draws := ⟨pick⟩

end Draws

end GrammarInduction
