import GrammarInduction.Json.Lexeme
import GrammarInduction.Json.Printer
import GrammarInduction.Proofs.Number.Reading

/-!
# Strings and numbers of documents are read back

A text between quotes is read character by character, each from its own spelling
(`splitString_spellCode`): the short escapes, the numbered ones of the other controls, and the
characters that stand for themselves. A number goes on as long as it can, so what follows must not
be taken for a part of it (`Stop`); a numeral that begins with a zero is that zero alone.
-/

namespace GrammarInduction.Json

/-! ## Strings -/

/-- A character is no half of a surrogate pair. -/
theorem toNat_not_half (c : Char) : isHigh c.toNat = false ∧ isLow c.toNat = false := by
  have h : c.toNat < 0xD800 ∨ 0xDFFF < c.toNat := c.valid.imp_right And.left
  simp only [isHigh, isLow, Bool.and_eq_false_iff, decide_eq_false_iff_not]
  omega

namespace Lexeme

theorem numberedCode_control : ∀ code < 0x20, numberedCode code =
    ['\\', 'u', '0', '0', Nat.digitChar (code / 16), Nat.digitChar (code % 16)] := by
  decide

theorem hex4?_control : ∀ code < 0x20,
    hex4? '0' '0' (Nat.digitChar (code / 16)) (Nat.digitChar (code % 16)) = some code := by
  decide

/-- A code point in front of a string. -/
def front (code : Nat) (s : Option (List Nat × List Char)) : Option (List Nat × List Char) :=
  s.map fun (codes, rest) => (code :: codes, rest)

/-- A character that needs no escape stands for itself. -/
theorem splitString_cons {c : Char} (hquote : c ≠ '"') (hslash : c ≠ '\\') (hc : ¬ c < ' ')
    (cs : List Char) : splitString (c :: cs) = front c.toNat (splitString cs) := by
  rw [splitString.eq_def]
  split <;> rename_i h <;> cases h
  · exact absurd rfl hquote
  · exact absurd rfl hslash
  · exact absurd rfl hslash
  · rw [if_neg hc]
    rfl

theorem splitString_short {letter : Char} {code : Nat} (h : shortEscape? letter = some code)
    (cs : List Char) : splitString ('\\' :: letter :: cs) = front code (splitString cs) := by
  have hu : letter ≠ 'u' := by
    rintro rfl
    cases h
  rw [splitString]
  · rw [h]
    cases splitString cs <;> rfl
  · intro a b c d rest hl
    exact absurd hl hu

theorem splitString_numbered {a b c d : Char} {code : Nat} (h : hex4? a b c d = some code)
    (cs : List Char) :
    splitString ('\\' :: 'u' :: a :: b :: c :: d :: cs) = front code (splitString cs) := by
  rw [splitString, h]
  cases splitString cs <;> rfl

theorem splitString_spellCode (c : Char) (cs : List Char) :
    splitString (spellCode c.toNat ++ cs) = front c.toNat (splitString cs) := by
  obtain ⟨hhigh, hlow⟩ := toNat_not_half c
  unfold spellCode
  split_ifs with hquote hslash hb ht hn hf hr hcontrol
  · exact hquote ▸ splitString_short rfl cs
  · exact hslash ▸ splitString_short rfl cs
  · exact hb ▸ splitString_short rfl cs
  · exact ht ▸ splitString_short rfl cs
  · exact hn ▸ splitString_short rfl cs
  · exact hf ▸ splitString_short rfl cs
  · exact hr ▸ splitString_short rfl cs
  · have hlt : c.toNat < 0x20 := by simpa [hhigh, hlow] using hcontrol
    rw [numberedCode_control _ hlt]
    exact splitString_numbered (hex4?_control _ hlt) cs
  · rw [Char.ofNat_toNat]
    have hc : ¬ c < ' ' := fun h => hcontrol (by
      have hlt : c.toNat < 0x20 := UInt32.lt_iff_toNat_lt.1 h
      simpa [hhigh, hlow] using hlt)
    exact splitString_cons (fun h => hquote (congrArg Char.toNat h))
      (fun h => hslash (congrArg Char.toNat h)) hc cs

/-- A text is read up to the quote behind it. -/
theorem splitString_spell (s : List Char) (rest : List Char) :
    splitString ((s.map Char.toNat).flatMap spellCode ++ '"' :: rest) =
      some (s.map Char.toNat, rest) := by
  induction s with
  | nil => rfl
  | cons c s ih =>
    rw [List.map_cons, List.flatMap_cons, List.append_assoc, splitString_spellCode, ih]
    rfl

/-! ## Numbers -/

/-- A text that does not go on with a number in front of it. -/
def Stop (cs : List Char) : Prop :=
  ∀ c ∈ cs.head?, c.isDigit = false ∧ c ≠ '.' ∧ c ≠ 'e' ∧ c ≠ 'E'

theorem stop_nil : Stop [] := nofun

theorem stop_cons {c : Char} (h : c.isDigit = false ∧ c ≠ '.' ∧ c ≠ 'e' ∧ c ≠ 'E')
    (cs : List Char) : Stop (c :: cs) := by
  rintro _ ⟨⟩
  exact h

/-- A numeral begins with a zero for the number zero only. -/
theorem eq_nil_of_toDigits {n : Nat} {cs : List Char} (h : Nat.toDigits 10 n = '0' :: cs) :
    cs = [] := by
  induction n using Nat.strongRecOn generalizing cs with
  | ind n ih =>
    by_cases hn : n < 10
    · rw [Nat.toDigits_of_lt_base hn] at h
      exact (List.cons.inj h).2.symm
    · obtain ⟨c, ds, hds, -⟩ := Decimal.toDigits_eq_cons (n / 10)
      rw [Nat.toDigits_of_base_le (by decide) (by omega), hds] at h
      obtain rfl : c = '0' := (List.cons.inj h).1
      -- all digits but the last would be a zero alone, so there are none
      obtain rfl := ih (n / 10) (by omega) hds
      have hzero := Nat.ofDigitChars_ten_toDigits (n := n / 10)
      rw [hds] at hzero
      have hz : Nat.ofDigitChars 10 ['0'] 0 = 0 := rfl
      omega

/-- A text that begins with a digit holds a number there. -/
theorem split_digit {c : Char} (hc : c.isDigit = true) (cs : List Char) : split (c :: cs) =
    (splitUnsigned (c :: cs)).map fun (literal, rest) => (.scalar (.number literal), rest) := by
  have hmark : ofMark? c = none := by
    unfold ofMark?
    split_ifs <;> subst_vars <;> first | rfl | cases hc
  have hnumber : splitNumber (c :: cs) = splitUnsigned (c :: cs) := by
    unfold splitNumber
    split <;> rename_i h
    · cases h
      cases hc
    · rfl
  unfold split
  split <;> rename_i h <;> cases h
  · cases hc
  · cases hc
  · cases hc
  · cases hc
  · rw [hmark, hnumber]

section
variable {rest : List Char} (h : Stop rest) (n : Nat)
include h

theorem splitInteger_toDigits :
    splitInteger (Nat.toDigits 10 n ++ rest) = some (Nat.toDigits 10 n, rest) := by
  have hrest : ∀ c ∈ rest.head?, c.isDigit = false := fun c hc => (h c hc).1
  have hdigits : splitDigits (Nat.toDigits 10 n ++ rest) = some (Nat.toDigits 10 n, rest) := by
    rw [splitDigits, takeWhile_append_of_head? Decimal.isDigit_toDigits hrest,
      dropWhile_append_of_head? Decimal.isDigit_toDigits hrest, if_neg Nat.toDigits_ne_nil]
  unfold splitInteger
  split
  · rename_i rest' hcs
    obtain ⟨c, ds, hds, -⟩ := Decimal.toDigits_eq_cons n
    rw [hds] at hcs ⊢
    obtain ⟨rfl, rfl⟩ := List.cons.inj hcs
    rw [eq_nil_of_toDigits hds]
    rfl
  · exact hdigits

theorem splitFraction_of_stop : splitFraction rest = some ([], rest) := by
  unfold splitFraction
  split
  · exact absurd rfl (h '.' rfl).2.1
  · rfl

theorem splitExponent_of_stop : splitExponent rest = some ([], rest) := by
  unfold splitExponent
  split
  · rfl
  · rename_i c cs
    obtain ⟨-, -, he, hE⟩ := h c rfl
    rw [if_neg (not_or.2 ⟨he, hE⟩)]

theorem split_toDigits :
    split (Nat.toDigits 10 n ++ rest) = some (.scalar (ofNat n), rest) := by
  have hunsigned : splitUnsigned (Nat.toDigits 10 n ++ rest) = some (Nat.toDigits 10 n, rest) := by
    simp [splitUnsigned, splitInteger_toDigits h, splitFraction_of_stop h, splitExponent_of_stop h]
  obtain ⟨c, ds, hds, hc, -⟩ := Decimal.toDigits_eq_cons n
  rw [hds, List.cons_append] at hunsigned ⊢
  rw [split_digit hc, hunsigned, ofNat, hds]
  rfl

end

end Lexeme

end GrammarInduction.Json
