import GrammarInduction.Grammar.Symbol
import GrammarInduction.Proofs.Number.Reading
import Mathlib.Algebra.Group.Nat.Defs
import Mathlib.Logic.Function.Basic

/-!
# Induced names

The name with number `n` is `$`, a letter for `n % 26` and the decimal numeral of `n / 26`: other
numbers have other names (`inducedName_injective`). The number that a name is written with may be
any (`writtenNumber?`), with a plus sign or zeros in front of the numeral too; it is that of an
induced name (`writtenNumber?_inducedName`), and it is read unless the numeral is too large for a
word (`nameNumber?_eq_filter`). A name without the mark `$` has no number. An induced name has no
other characters (`notMem_inducedName`), and so none that keys are joined with.
-/

namespace GrammarInduction

/-- Whether a name begins with `$`, as every induced name does. -/
def marked (name : String) : Bool := name.toList.head? == some '$'

theorem toList_inducedName (n : Nat) :
    (inducedName n).toList =
      '$' :: Char.ofNat ('A'.toNat + n % 26) :: Nat.toDigits 10 (n / 26) := by
  simp [inducedName]

example : inducedName 27 = "$B1" := by decide

@[simp] theorem marked_inducedName (n : Nat) : marked (inducedName n) = true := by
  simp [marked, toList_inducedName]

theorem toNat_letter {k : Nat} (h : k < 26) :
    (Char.ofNat ('A'.toNat + k)).toNat = 'A'.toNat + k := by
  have hv : ('A'.toNat + k).isValidChar := .inl (by simp; omega)
  rw [Char.ofNat, dif_pos hv]
  rfl

theorem isUpper_letter : ∀ k < 26, (Char.ofNat ('A'.toNat + k)).isUpper = true := by decide

/-- An induced name has its mark, a letter and digits, and no other characters. -/
theorem notMem_inducedName {c : Char} (hmark : c ≠ '$') (hupper : c.isUpper = false)
    (hdigit : c.isDigit = false) (n : Nat) : c ∉ (inducedName n).toList := by
  intro h
  rw [toList_inducedName, List.mem_cons, List.mem_cons] at h
  rcases h with h | h | h
  · exact hmark h
  · rw [h, isUpper_letter _ (Nat.mod_lt n (by decide))] at hupper
    cases hupper
  · rw [Decimal.isDigit_toDigits c h] at hdigit
    cases hdigit

theorem inducedName_injective : Function.Injective inducedName := by
  intro m n h
  have hl := congrArg String.toList h
  rw [toList_inducedName, toList_inducedName] at hl
  simp only [List.cons.injEq, true_and] at hl
  obtain ⟨hc, hd⟩ := hl
  have hmod : m % 26 = n % 26 := by
    have hc := congrArg Char.toNat hc
    rw [toNat_letter (Nat.mod_lt _ (by decide)), toNat_letter (Nat.mod_lt _ (by decide))] at hc
    omega
  have hdiv : m / 26 = n / 26 := by
    rw [← Nat.ofDigitChars_ten_toDigits (n := m / 26), hd, Nat.ofDigitChars_ten_toDigits]
  omega

/-! ## Reading names -/

/-- The digits after the letter of a name, with an optional plus sign. -/
def writtenRound? : List Char → Option Nat
  | '+' :: cs => Decimal.digits? cs
  | cs => Decimal.digits? cs

/-- The number that a name is written with, however large it is. -/
def writtenNumber? (name : String) : Option Nat :=
  match name.toList with
  | '$' :: letter :: cs =>
    if letter.isUpper then
      (writtenRound? cs).map fun round => round * 26 + (letter.toNat - 'A'.toNat)
    else none
  | _ => none

theorem roundNumber?_eq_filter (cs : List Char) :
    roundNumber? cs = (writtenRound? cs).filter (· < 2 ^ 64) := by
  unfold roundNumber? writtenRound?
  cases cs with
  | nil => rfl
  | cons c cs => by_cases hc : c = '+' <;> simp [hc, Decimal.word?]

theorem letter_lt {c : Char} (h : c.isUpper = true) : c.toNat - 'A'.toNat < 26 := by
  have hle : c.toNat ≤ 'Z'.toNat := (of_decide_eq_true h).2
  have hZ : 'Z'.toNat = 'A'.toNat + 25 := rfl
  omega

/-- The number of a name is the one that it is written with, if the round is a word. -/
theorem nameNumber?_eq_filter (name : String) :
    nameNumber? name = (writtenNumber? name).filter (· / 26 < 2 ^ 64) := by
  unfold nameNumber? writtenNumber?
  cases name.toList with
  | nil => rfl
  | cons c cs =>
    cases cs with
    | nil => by_cases hc : c = '$' <;> simp [hc]
    | cons letter cs =>
      by_cases hc : c = '$'
      · subst hc
        by_cases hupper : letter.isUpper = true
        · have hletter := letter_lt hupper
          simp only [if_pos hupper, roundNumber?_eq_filter]
          generalize letter.toNat - 'A'.toNat = k at hletter ⊢
          cases writtenRound? cs with
          | none => rfl
          | some round =>
            have hround : (round * 26 + k) / 26 = round := by omega
            simp [Option.filter, hround]
        · simp [hupper]
      · simp [hc]

theorem writtenNumber?_inducedName (n : Nat) : writtenNumber? (inducedName n) = some n := by
  have hk := Nat.mod_lt n (show 26 > 0 by decide)
  have hround : writtenRound? (Nat.toDigits 10 (n / 26)) = some (n / 26) := by
    unfold writtenRound?
    split
    · rename_i cs h
      exact absurd (Decimal.isDigit_toDigits '+' (h ▸ List.mem_cons_self)) (by decide)
    · exact Decimal.digits?_toDigits _
  rw [writtenNumber?, toList_inducedName]
  simp only [isUpper_letter _ hk, if_true, hround, toNat_letter hk, Option.map_some,
    Option.some.injEq]
  omega

/-- An induced name is read back, unless its round is too large for a word. -/
theorem nameNumber?_inducedName (n : Nat) :
    nameNumber? (inducedName n) = if n / 26 < 2 ^ 64 then some n else none := by
  rw [nameNumber?_eq_filter, writtenNumber?_inducedName]
  simp [Option.filter]

/-- A number read from an induced name is the number of that name. -/
theorem eq_of_nameNumber? {m n : Nat} (h : nameNumber? (inducedName n) = some m) : m = n := by
  rw [nameNumber?_inducedName] at h
  split at h
  · exact (Option.some.inj h).symm
  · cases h

/-- A name without the mark has no number. -/
theorem nameNumber?_of_unmarked {name : String} (h : marked name = false) :
    nameNumber? name = none := by
  unfold nameNumber?
  split
  · rename_i hl
    simp [marked, hl] at h
  · rfl

theorem separator_notMem_inducedName (n : Nat) : '\x1f' ∉ (inducedName n).toList :=
  notMem_inducedName (by decide) (by decide) (by decide) n

end GrammarInduction
