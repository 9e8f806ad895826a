import GrammarInduction.Number.Binary64
import GrammarInduction.Proofs.Lists
import Mathlib.Algebra.Order.Ring.Nat

/-!
# Numbers are read back

A finite number is written as the first numeral on a grid that reads back, and the last grid holds
the number itself (`Binary64.nearest_units`), so what is written always reads back
(`Binary64.ofText?_text`). The numeral has a digit in front and holds digits and a point only
(`Decimal.toChars_eq_cons`).
-/

namespace GrammarInduction

namespace Decimal

/-! ## Numerals -/

section
variable {whole part : List Char} (hw : ∀ c ∈ whole, c.isDigit = true)
include hw

theorem span_digits {cs : List Char} (hcs : ∀ c ∈ cs.head?, c.isDigit = false) :
    (whole ++ cs).span Char.isDigit = (whole, cs) := by
  rw [List.span_eq_takeWhile_dropWhile, takeWhile_append_of_head? hw hcs,
    dropWhile_append_of_head? hw hcs]

variable (hne : whole ≠ [])
include hne

theorem ofChars?_digits : ofChars? whole = some ⟨Nat.ofDigitChars 10 whole 0, 0⟩ := by
  have hspan : (whole ++ []).span Char.isDigit = _ := span_digits hw nofun
  rw [List.append_nil] at hspan
  rw [ofChars?, hspan]
  simp only [fraction, List.append_nil, if_neg hne]
  rfl

theorem ofChars?_point (hp : ∀ c ∈ part, c.isDigit = true) :
    ofChars? (whole ++ '.' :: part) =
      some ⟨Nat.ofDigitChars 10 (whole ++ part) 0, -part.length⟩ := by
  have hspan : (whole ++ '.' :: part).span Char.isDigit = _ := span_digits hw (by simp)
  have hpart : (part ++ []).span Char.isDigit = _ := span_digits hp nofun
  rw [List.append_nil] at hpart
  have hfraction : fraction ('.' :: part) = (part, []) := hpart
  rw [ofChars?, hspan]
  simp only [hfraction, if_neg (List.append_ne_nil_of_left_ne_nil hne part), exponent?,
    Option.map_some, Int.zero_sub]

end

theorem isDigit_toDigits {n : Nat} : ∀ c ∈ Nat.toDigits 10 n, c.isDigit = true := fun _ hc =>
  Nat.isDigit_of_mem_toDigits (by decide) (by decide) hc

/-- A numeral has a digit in front, and digits after it. -/
theorem toDigits_eq_cons (n : Nat) : ∃ c cs, Nat.toDigits 10 n = c :: cs ∧ c.isDigit = true ∧
    ∀ a ∈ cs, a.isDigit = true := by
  obtain ⟨c, cs, h⟩ := List.exists_cons_of_ne_nil (Nat.toDigits_ne_nil (b := 10) (n := n))
  exact ⟨c, cs, h, List.forall_mem_cons.1 (h ▸ isDigit_toDigits)⟩

theorem digits?_toDigits (n : Nat) : digits? (Nat.toDigits 10 n) = some n := by
  have hall : (Nat.toDigits 10 n).all Char.isDigit = true := List.all_eq_true.2 isDigit_toDigits
  rw [digits?, if_pos ⟨Nat.toDigits_ne_nil, hall⟩, Nat.ofDigitChars_ten_toDigits]

theorem word?_toDigits (n : Nat) :
    word? (Nat.toDigits 10 n) = if n < 2 ^ 64 then some n else none := by
  rw [word?, digits?_toDigits]
  simp [Option.filter]

/-- The digits of `n` with zeros in front, up to one place more than `places` at least. -/
def padded (n places : Nat) : List Char := (Nat.toDigits 10 n).leftpad (places + 1) '0'

theorem isDigit_padded {n places : Nat} : ∀ c ∈ padded n places, c.isDigit = true := by
  intro c hc
  rcases List.mem_append.1 hc with hc | hc
  · rw [List.eq_of_mem_replicate hc]
    rfl
  · exact isDigit_toDigits c hc

theorem ofDigitChars_padded (n places : Nat) : Nat.ofDigitChars 10 (padded n places) 0 = n := by
  rw [padded, List.leftpad, Nat.ofDigitChars_append, Nat.ofDigitChars_replicate_zero, Nat.mul_zero,
    Nat.ofDigitChars_ten_toDigits]

theorem lt_length_padded (n places : Nat) : places < (padded n places).length := by
  rw [padded, List.length_leftpad]
  omega

/-- The same number without a positive exponent. -/
def expanded (d : Decimal) : Decimal :=
  if 0 ≤ d.exponent then ⟨d.coefficient * Nat.pow 10 d.exponent.toNat, 0⟩ else d

/-- Digits around a point, at least one of them in front and `places` of them behind. -/
theorem withPoint_eq (n places : Nat) : ∃ whole part, withPoint n places = whole ++ '.' :: part ∧
    whole ++ part = padded n places ∧ whole ≠ [] ∧ part.length = places := by
  have hlt := lt_length_padded n places
  refine ⟨(padded n places).take ((padded n places).length - places),
    (padded n places).drop ((padded n places).length - places), rfl, List.take_append_drop ..,
    ?_, ?_⟩
  · rw [← List.length_pos_iff, List.length_take]
    omega
  · rw [List.length_drop]
    omega

theorem ofChars?_withPoint (n places : Nat) :
    ofChars? (withPoint n places) = some ⟨n, -places⟩ := by
  obtain ⟨whole, part, h, hall, hne, rfl⟩ := withPoint_eq n places
  have hdigit : ∀ c ∈ whole ++ part, c.isDigit = true := by
    rw [hall]
    exact isDigit_padded
  rw [h, ofChars?_point (fun c hc => hdigit c (List.mem_append_left _ hc)) hne
    fun c hc => hdigit c (List.mem_append_right _ hc), hall, ofDigitChars_padded]

/-- What is written is read back, with its zeros up to the units. -/
theorem ofChars?_toChars (d : Decimal) : ofChars? d.toChars = some d.expanded := by
  unfold toChars expanded
  split
  · rw [ofChars?_digits isDigit_toDigits Nat.toDigits_ne_nil, Nat.ofDigitChars_ten_toDigits]
  · have hexp : -((-d.exponent).toNat : Int) = d.exponent := by omega
    rw [ofChars?_withPoint, hexp]

/-- A digit stands in front, and after it digits and points. -/
theorem toChars_eq_cons (d : Decimal) : ∃ c cs, d.toChars = c :: cs ∧ c.isDigit = true ∧
    ∀ a ∈ cs, a.isDigit = true ∨ a = '.' := by
  unfold toChars
  split
  · obtain ⟨c, cs, h, hc, hcs⟩ := toDigits_eq_cons (d.coefficient * Nat.pow 10 d.exponent.toNat)
    exact ⟨c, cs, h, hc, fun a ha => .inl (hcs a ha)⟩
  · obtain ⟨whole, part, h, hall, hne, -⟩ := withPoint_eq d.coefficient (-d.exponent).toNat
    obtain ⟨c, cs, rfl⟩ := List.exists_cons_of_ne_nil hne
    have hdigit : ∀ a ∈ c :: cs ++ part, a.isDigit = true := by
      rw [hall]
      exact isDigit_padded
    refine ⟨c, cs ++ '.' :: part, h, hdigit c (by simp), fun a ha => ?_⟩
    rcases List.mem_append.1 ha with ha | ha
    · exact .inl (hdigit a (by simp [ha]))
    · rcases List.mem_cons.1 ha with rfl | ha
      · exact .inr rfl
      · exact .inl (hdigit a (by simp [ha]))

/-- Writing out zeros does not change the nearest magnitude, unless that is infinity. -/
theorem nearest_expanded {d : Decimal} (h : d.nearest ≠ .infinity) :
    d.expanded.nearest = d.nearest := by
  unfold expanded
  split
  · rename_i he
    by_cases hc : d.coefficient = 0
    · simp [nearest, hc]
    · have hlt : ¬ 400 ≤ d.exponent := fun hle => h (by rw [nearest, if_neg hc, if_pos hle])
      have hpos : d.coefficient * Nat.pow 10 d.exponent.toNat ≠ 0 :=
        Nat.mul_ne_zero hc (Nat.pow_pos (by decide)).ne'
      have hzero : (-d.exponent).toNat = 0 := by omega
      have hsmall : ∀ n : Nat, ¬ (n + 1076 : Int) ≤ 3 * -0 := fun n => by omega
      have hsmall' : ¬ (d.coefficient.log2 + 1076 : Int) ≤ 3 * -d.exponent := by omega
      simp only [nearest, if_neg hc, if_neg hpos, if_neg hlt, if_neg (hsmall _), if_neg hsmall',
        num, den, hzero]
      simp
  · rfl

end Decimal

namespace Binary64

/-! ## Exact quotients -/

theorem halfEven_mul (a : Nat) {b : Nat} (hb : 0 < b) : halfEven (a * b) b = a := by
  rw [halfEven, Nat.mul_div_cancel _ hb, Nat.mul_mod_left]
  exact if_pos (.inl hb)

/-- Where `2 ^ -p` is the least magnitude, the shift `k` leaves a significand below `2 ^ 53` for the
number `num / den`, and no smaller one does. -/
structure Scales (p num den k : Nat) : Prop where
  lt : num * 2 ^ p < den * 2 ^ (k + 53)
  le : k ≠ 0 → den * 2 ^ (k + 52) ≤ num * 2 ^ p

section
variable {p num den j k : Nat}

theorem Scales.le_of (hj : Scales p num den j) (hk : Scales p num den k) : k ≤ j := by
  by_cases h0 : k = 0
  · omega
  · have hpow := Nat.lt_of_mul_lt_mul_left ((hk.le h0).trans_lt hj.lt)
    have := (Nat.pow_lt_pow_iff_right (by decide : 1 < 2)).1 hpow
    omega

theorem Scales.unique (hj : Scales p num den j) (hk : Scales p num den k) : j = k :=
  Nat.le_antisymm (hk.le_of hj) (hj.le_of hk)

/-- The powers of two at `num` and `den` tell the shift, but for a carry. -/
theorem scales_of_pow (hp : 52 ≤ p) {a b : Nat} (hnum : 2 ^ a ≤ num) (hnum' : num < 2 ^ (a + 1))
    (hden : 2 ^ b ≤ den) (hden' : den < 2 ^ (b + 1)) :
    Scales p num den (a + (p - 52) - b - if num * 2 ^ b < den * 2 ^ a then 1 else 0) := by
  split
  · rename_i hlt
    -- the quotient is below `2 ^ (a - b)`
    refine ⟨?_, fun hk => ?_⟩
    · refine Nat.lt_of_mul_lt_mul_right (a := 2 ^ b) ?_
      calc num * 2 ^ p * 2 ^ b = num * 2 ^ b * 2 ^ p := Nat.mul_right_comm ..
        _ < den * 2 ^ a * 2 ^ p := Nat.mul_lt_mul_of_pos_right hlt (Nat.two_pow_pos _)
        _ = den * 2 ^ (a + p) := by rw [Nat.mul_assoc, ← Nat.pow_add]
        _ ≤ den * 2 ^ (a + (p - 52) - b - 1 + 53 + b) :=
          Nat.mul_le_mul_left _ (Nat.pow_le_pow_right (by decide) (by omega))
        _ = den * 2 ^ (a + (p - 52) - b - 1 + 53) * 2 ^ b := by
          rw [Nat.pow_add _ _ b, Nat.mul_assoc]
    · calc den * 2 ^ (a + (p - 52) - b - 1 + 52)
          ≤ 2 ^ (b + 1) * 2 ^ (a + (p - 52) - b - 1 + 52) := Nat.mul_le_mul_right _ hden'.le
        _ = 2 ^ (a + p) := by rw [← Nat.pow_add]; congr 1; omega
        _ = 2 ^ a * 2 ^ p := Nat.pow_add ..
        _ ≤ num * 2 ^ p := Nat.mul_le_mul_right _ hnum
  · rename_i hle
    -- the quotient is at least `2 ^ (a - b)`
    refine ⟨?_, fun hk => ?_⟩
    · calc num * 2 ^ p < 2 ^ (a + 1) * 2 ^ p :=
          Nat.mul_lt_mul_of_pos_right hnum' (Nat.two_pow_pos _)
        _ = 2 ^ (a + 1 + p) := (Nat.pow_add ..).symm
        _ ≤ 2 ^ (b + (a + (p - 52) - b - 0 + 53)) := Nat.pow_le_pow_right (by decide) (by omega)
        _ = 2 ^ b * 2 ^ (a + (p - 52) - b - 0 + 53) := Nat.pow_add ..
        _ ≤ den * 2 ^ (a + (p - 52) - b - 0 + 53) := Nat.mul_le_mul_right _ hden
    · refine Nat.le_of_mul_le_mul_right (c := 2 ^ b) ?_ (Nat.two_pow_pos b)
      calc den * 2 ^ (a + (p - 52) - b - 0 + 52) * 2 ^ b
          = den * 2 ^ (a + (p - 52) - b - 0 + 52 + b) := by rw [Nat.pow_add _ _ b, Nat.mul_assoc]
        _ = den * 2 ^ (a + p) := by congr 2; omega
        _ = den * 2 ^ a * 2 ^ p := by rw [Nat.pow_add, Nat.mul_assoc]
        _ ≤ num * 2 ^ b * 2 ^ p := Nat.mul_le_mul_right _ (Nat.le_of_not_lt hle)
        _ = num * 2 ^ p * 2 ^ b := Nat.mul_right_comm ..

theorem scales_shiftOf (hn : num ≠ 0) (hd : den ≠ 0) : Scales 1074 num den (shiftOf num den) :=
  scales_of_pow (by decide) (Nat.log2_self_le hn) Nat.lt_log2_self (Nat.log2_self_le hd)
    Nat.lt_log2_self

end

namespace Magnitude

variable (m : Magnitude)

theorem shift_add_significand : m.shift * 2 ^ 52 + m.significand = m.val := by
  rw [significand, Nat.pow_eq, Nat.add_sub_of_le]
  rw [shift, Nat.pow_eq]
  omega

theorem significand_lt : m.significand < 2 ^ 53 := by
  rw [significand, shift, Nat.pow_eq]
  omega

theorem le_significand (h : m.shift ≠ 0) : 2 ^ 52 ≤ m.significand := by
  rw [shift, Nat.pow_eq] at h
  rw [significand, shift, Nat.pow_eq]
  omega

theorem units_ne_zero (h : m ≠ 0) : m.units ≠ 0 := by
  have hval : m.val ≠ 0 := fun h0 => h (Fin.ext h0)
  have hsum := m.shift_add_significand
  refine Nat.mul_ne_zero (fun h0 => ?_) (Nat.pow_pos (by decide)).ne'
  by_cases hs : m.shift = 0
  · rw [hs, h0] at hsum
    omega
  · have := m.le_significand hs
    omega

/-- The shift of a magnitude is the one that its value calls for. -/
theorem scales_units {p c : Nat} (hc : 0 < c) : Scales p (m.units * c) (c * 2 ^ p) m.shift := by
  have hnum : m.units * c * 2 ^ p = c * 2 ^ p * m.units := by
    rw [Nat.mul_assoc, Nat.mul_comm]
  constructor
  · rw [hnum, units, Nat.pow_eq]
    refine Nat.mul_lt_mul_of_pos_left ?_ (Nat.mul_pos hc (Nat.two_pow_pos _))
    rw [Nat.add_comm, Nat.pow_add]
    exact Nat.mul_lt_mul_of_pos_right m.significand_lt (Nat.two_pow_pos _)
  · intro hs
    rw [hnum, units, Nat.pow_eq]
    refine Nat.mul_le_mul_left _ ?_
    rw [Nat.add_comm, Nat.pow_add]
    exact Nat.mul_le_mul_right _ (m.le_significand hs)

/-- On the grid of its shift a magnitude is its significand. -/
theorem units_mul_pow (p c : Nat) : m.units * c * 2 ^ (p - m.shift) =
    m.significand * (c * 2 ^ p * 2 ^ (m.shift - p)) := by
  have hpow : 2 ^ m.shift * 2 ^ (p - m.shift) = 2 ^ p * 2 ^ (m.shift - p) := by
    rw [← Nat.pow_add, ← Nat.pow_add]
    congr 1
    omega
  calc m.significand * 2 ^ m.shift * c * 2 ^ (p - m.shift)
      = m.significand * c * (2 ^ m.shift * 2 ^ (p - m.shift)) := by
        rw [Nat.mul_right_comm m.significand, Nat.mul_assoc]
    _ = m.significand * (c * 2 ^ p * 2 ^ (m.shift - p)) := by
        rw [hpow, Nat.mul_assoc, Nat.mul_assoc]

end Magnitude

section
-- the grid has a name, so that its powers are not computed
variable {p : Nat} (hp : p = 1074)
include hp

theorem val_nearest (num den : Nat) : (nearest num den).val =
    min (shiftOf num den * 2 ^ 52 + halfEven (num * 2 ^ (p - shiftOf num den))
      (den * 2 ^ (shiftOf num den - p))) infinityCode := by
  subst hp
  rfl

variable {m : Magnitude} (hm : m ≠ 0)
include hm

/-- The value of a magnitude is rounded to the magnitude itself, however it is extended. -/
theorem nearest_units {c : Nat} (hc : 0 < c) : nearest (m.units * c) (c * 2 ^ p) = m := by
  have hscales : ∀ {num den : Nat}, num ≠ 0 → den ≠ 0 → Scales p num den (shiftOf num den) :=
    hp ▸ scales_shiftOf
  have hden : 0 < c * 2 ^ p := Nat.mul_pos hc (Nat.two_pow_pos p)
  have hshift : shiftOf (m.units * c) (c * 2 ^ p) = m.shift :=
    (hscales (Nat.mul_ne_zero (m.units_ne_zero hm) hc.ne') hden.ne').unique (m.scales_units hc)
  refine Fin.ext ?_
  rw [val_nearest hp, hshift, m.units_mul_pow,
    halfEven_mul _ (Nat.mul_pos hden (Nat.two_pow_pos _)), m.shift_add_significand]
  exact Nat.min_eq_left (Nat.le_of_lt_succ m.isLt)

/-- The numeral with all places of a magnitude is rounded to it. -/
theorem nearest_allPlaces : (⟨m.units * Nat.pow 5 p, -p⟩ : Decimal).nearest = m := by
  rw [Nat.pow_eq]
  have hunits := m.units_ne_zero hm
  have hcoeff : m.units * 5 ^ p ≠ 0 := Nat.mul_ne_zero hunits (Nat.pow_pos (by decide)).ne'
  have hlog : 2 * p ≤ (m.units * 5 ^ p).log2 := by
    rw [Nat.le_log2 hcoeff, Nat.pow_mul]
    calc (2 ^ 2) ^ p ≤ 5 ^ p := Nat.pow_le_pow_left (by decide) p
      _ ≤ m.units * 5 ^ p := Nat.le_mul_of_pos_left _ (Nat.pos_of_ne_zero hunits)
  have hnum : (⟨m.units * 5 ^ p, -p⟩ : Decimal).num = m.units * 5 ^ p := by
    have hexp : (-(p : Int)).toNat = 0 := by omega
    rw [Decimal.num, hexp]
    exact Nat.mul_one _
  have hden : (⟨m.units * 5 ^ p, -p⟩ : Decimal).den = 5 ^ p * 2 ^ p := by
    rw [Decimal.den, Int.neg_neg, Int.toNat_natCast, Nat.pow_eq, ← Nat.mul_pow]
  rw [Decimal.nearest, if_neg hcoeff, if_neg (by simp only; omega), if_neg (by simp only; omega),
    hnum, hden]
  exact nearest_units hp hm (Nat.pow_pos (by decide))

end

/-! ## The shortest numeral -/

theorem nearest_of_onGrid {m : Magnitude} {e : Int} {d : Decimal} (h : onGrid m e = some d) :
    d.nearest = m := by
  unfold onGrid at h
  extract_lets unit a b below above at h
  split at h
  · rename_i habove
    rw [← Option.some.inj h]
    exact habove.1
  · split at h
    · rename_i hbelow
      rw [← Option.some.inj h]
      exact hbelow
    · cases h

theorem nearest_firstOnGrid {m : Magnitude} (hm : m ≠ 0) : ∀ n : Nat,
    (firstOnGrid m n).nearest = m
  | 0 => by
    obtain ⟨p, hp⟩ : ∃ p : Nat, p = 1074 := ⟨_, rfl⟩
    have hexp : (-1074 : Int) = -(p : Int) := by rw [hp]; rfl
    rw [firstOnGrid, ← hp, hexp]
    exact nearest_allPlaces hp hm
  | n + 1 => by
    rw [firstOnGrid]
    cases h : onGrid m ((n + 1 : Int) - 1074) with
    | none => exact nearest_firstOnGrid hm n
    | some d => exact nearest_of_onGrid h

theorem nearest_shortest (m : Magnitude) : (shortest m).nearest = m := by
  unfold shortest
  split
  · rename_i hm
    rw [hm]
    rfl
  · rename_i hm
    exact nearest_firstOnGrid hm _

theorem magnitude?_shortest {m : Magnitude} (hm : m ≠ .infinity) :
    magnitude? (shortest m).toChars = some (some m) := by
  have hne : (shortest m).nearest ≠ .infinity := by rwa [nearest_shortest]
  rw [magnitude?, Decimal.ofChars?_toChars]
  simp only [Decimal.nearest_expanded hne, nearest_shortest]

/-! ## Whole numbers -/

theorem splitSign_of_digit {c : Char} (hc : c.isDigit = true) (cs : List Char) :
    splitSign (c :: cs) = (false, c :: cs) := by
  unfold splitSign
  split
  · rename_i h
    cases h
    exact absurd hc (by decide)
  · rename_i h
    cases h
    exact absurd hc (by decide)
  · rfl

/-- Every number is read back from its text. -/
theorem ofText?_text (x : Binary64) : ofText? x.text = some x := by
  cases x with
  | nan => decide
  | signed negative m =>
    by_cases hm : m = .infinity
    · subst hm
      cases negative <;> decide
    · obtain ⟨c, cs, hchars, hc, -⟩ := Decimal.toChars_eq_cons (shortest m)
      have hread := magnitude?_shortest hm
      rw [hchars] at hread
      rw [text, if_neg hm, hchars, ofText?, String.toList_ofList]
      cases negative with
      | true => simp [splitSign, hread]
      | false => simp [splitSign_of_digit hc, hread]

end Binary64

end GrammarInduction
