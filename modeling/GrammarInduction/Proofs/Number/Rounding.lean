import GrammarInduction.Number.Binary64
import Mathlib.Algebra.Order.Ring.Nat
import Mathlib.Data.Nat.Log

/-!
# Counts as binary64 numbers

A threshold is compared with the binary64 number nearest to a count. Rounding keeps the order of
counts (`Binary64.nearest_mono`, `Binary64.ofNat_mono`): between two powers of two the quotient of
one denominator is rounded, and a power of two bounds what is rounded on either side of it. So a
threshold that a count reaches is reached by every greater one (`Binary64.atMost_mono`).
-/

namespace GrammarInduction

namespace Binary64

/-! ## Rounding a quotient -/

theorem div_le_halfEven (a b : Nat) : a / b ≤ halfEven a b := by
  simp only [halfEven]
  split <;> omega

theorem halfEven_le (a b : Nat) : halfEven a b ≤ a / b + 1 := by
  simp only [halfEven]
  split <;> omega

theorem halfEven_mono {a a' : Nat} (h : a ≤ a') (b : Nat) : halfEven a b ≤ halfEven a' b := by
  have hq : a / b ≤ a' / b := Nat.div_le_div_right h
  rcases Nat.lt_or_eq_of_le hq with hlt | heq
  · exact (halfEven_le a b).trans (hlt.trans_le (div_le_halfEven a' b))
  · -- the quotients are equal, so the remainders are in the order of the numerators
    have hr : a % b ≤ a' % b := by
      have hd := Nat.div_add_mod a b
      have hd' := Nat.div_add_mod a' b
      rw [heq] at hd
      omega
    simp only [halfEven, heq]
    split <;> split <;> omega

theorem le_halfEven {k a b : Nat} (hb : 0 < b) (h : k * b ≤ a) : k ≤ halfEven a b :=
  ((Nat.le_div_iff_mul_le hb).2 h).trans (div_le_halfEven a b)

theorem halfEven_le_of_lt {k a b : Nat} (hb : 0 < b) (h : a < k * b) : halfEven a b ≤ k :=
  (halfEven_le a b).trans ((Nat.div_lt_iff_lt_mul hb).2 h)

/-! ## Rounding a count -/

variable {m n : Nat}

/-- The shift for a count depends on its greatest power of two only. -/
theorem shiftOf_one (h : n ≠ 0) : shiftOf n 1 = n.log2 + 1022 := by
  have hone : Nat.log2 1 = 0 := by decide
  have hpow : ¬ n * Nat.pow 2 0 < 1 * Nat.pow 2 n.log2 := by
    simpa using Nat.log2_self_le h
  rw [shiftOf, hone, if_neg hpow]
  omega

/-- The rounded significand of a count, for its shift. -/
def countSignificand (n : Nat) : Nat :=
  halfEven (n * 2 ^ (52 - n.log2)) (2 ^ (n.log2 - 52))

theorem val_nearest_one (h : n ≠ 0) : (nearest n 1).val =
    min ((n.log2 + 1022) * 2 ^ 52 + countSignificand n) infinityCode := by
  have hfactor : 1074 - (n.log2 + 1022) = 52 - n.log2 :=
    Nat.add_sub_add_right 52 1022 n.log2
  have hdivisor : n.log2 + 1022 - 1074 = n.log2 - 52 := Nat.add_sub_add_right n.log2 1022 52
  simp only [nearest, shiftOf_one h, countSignificand, Nat.pow_eq, Nat.one_mul, hfactor, hdivisor]

theorem countSignificand_mem (h : n ≠ 0) :
    2 ^ 52 ≤ countSignificand n ∧ countSignificand n ≤ 2 ^ 53 := by
  have hpos : 0 < 2 ^ (n.log2 - 52) := Nat.two_pow_pos _
  have hle : 2 ^ n.log2 * 2 ^ (52 - n.log2) ≤ n * 2 ^ (52 - n.log2) :=
    Nat.mul_le_mul_right _ (Nat.log2_self_le h)
  have hlt : n * 2 ^ (52 - n.log2) < 2 ^ (n.log2 + 1) * 2 ^ (52 - n.log2) :=
    Nat.mul_lt_mul_of_pos_right Nat.lt_log2_self (Nat.two_pow_pos _)
  rw [← Nat.pow_add] at hle hlt
  constructor
  · refine le_halfEven hpos ?_
    rw [← Nat.pow_add]
    convert hle using 2
    omega
  · refine halfEven_le_of_lt hpos ?_
    rw [← Nat.pow_add]
    convert hlt using 2
    omega

theorem nearest_mono (hm : m ≠ 0) (h : m ≤ n) : nearest m 1 ≤ nearest n 1 := by
  have hn : n ≠ 0 := by omega
  rw [Fin.le_def, val_nearest_one hm, val_nearest_one hn]
  refine Nat.le_min.2 ⟨(Nat.min_le_left _ _).trans ?_, Nat.min_le_right _ _⟩
  have hlog : m.log2 ≤ n.log2 := by
    rw [Nat.log2_eq_log_two, Nat.log2_eq_log_two]
    exact Nat.log_mono_right h
  rcases Nat.lt_or_eq_of_le hlog with hlt | heq
  · -- the powers of two in between keep the codes apart
    have := (countSignificand_mem hm).2
    have := (countSignificand_mem hn).1
    omega
  · have hsig : countSignificand m ≤ countSignificand n := by
      rw [countSignificand, countSignificand, heq]
      exact halfEven_mono (Nat.mul_le_mul_right _ h) _
    omega

/-! ## Reaching a threshold -/

theorem le_trans {x y z : Binary64} (hxy : x.le y = true) (hyz : y.le z = true) :
    x.le z = true := by
  cases x <;> cases y <;> cases z <;> simp only [le, decide_eq_true_eq, reduceCtorEq] at *
  omega

theorem ofNat_mono (h : m ≤ n) : (ofNat m).le (ofNat n) = true := by
  have hcode : (if m = 0 then 0 else nearest m 1) ≤ (if n = 0 then 0 else nearest n 1) := by
    by_cases hm : m = 0
    · simp [hm]
    · rw [if_neg hm, if_neg (by omega)]
      exact nearest_mono hm h
  rw [Fin.le_def] at hcode
  simp only [ofNat, le, signedCode, decide_eq_true_eq, Bool.false_eq_true, if_false]
  exact Int.ofNat_le.2 hcode

theorem atMost_mono {x : Binary64} (h : x.atMost m = true) (hmn : m ≤ n) : x.atMost n = true :=
  le_trans h (ofNat_mono hmn)

end Binary64

end GrammarInduction
