import GrammarInduction.Pattern.Lexeme
import GrammarInduction.Proofs.Lists
import Mathlib.Data.List.SplitBy
import Mathlib.Data.List.TakeWhile

/-!
# Lexemes by runs

The scan of a program, which goes from character to character, is described as a whole: cut each
line at its first `%` (`Lexeme.uncommented`), and part what remains into the longest runs of word
characters and single other characters (`Lexeme.runs`). The scan gives the lexemes before the first
character that is not permitted, and that character (`Lexeme.scan_eq`).
-/

namespace GrammarInduction

/-! ## Classes of characters -/

namespace Text

/-- All code points of the ranges. -/
def codes (ranges : List (Nat × Nat)) : List Nat :=
  ranges.flatMap fun r => List.range' r.1 (r.2 + 1 - r.1)

theorem mem_codes : ∀ {ranges : List (Nat × Nat)} {n : Nat}, inRanges ranges n = true →
    n ∈ codes ranges
  | [], _, h => by cases h
  | (first, last) :: rest, n, h => by
    rw [codes, List.flatMap_cons, List.mem_append, List.mem_range'_1]
    unfold inRanges at h
    split at h
    · cases h
    · split at h
      · exact .inl (by omega)
      · exact .inr (mem_codes h)

/-- White space is neither a letter nor a number. -/
theorem isAlphanumeric_of_isBlank {c : Char} (h : isBlank c = true) : isAlphanumeric c = false := by
  have hall : ∀ n ∈ codes blankRanges,
      (inRanges alphabeticRanges n || inRanges numericRanges n) = false := by
    decide +kernel
  exact hall _ (mem_codes h)

end Text

namespace Lexeme

/-- A character that may stand outside comments. -/
def permitted (c : Char) : Bool :=
  Text.isBlank c || Text.isAlphanumeric c || ['_', '.', ',', ';', '*'].contains c

theorem ofMark?_eq_some_iff {c : Char} {mark : Lexeme} : ofMark? c = some mark ↔
    (c = ',' ∧ mark = comma) ∨ (c = ';' ∧ mark = semicolon) ∨ (c = '*' ∧ mark = star) := by
  unfold ofMark?
  grind

theorem ofMark?_isSome {c : Char} : (ofMark? c).isSome ↔ c = ',' ∨ c = ';' ∨ c = '*' := by
  simp [Option.isSome_iff_exists, ofMark?_eq_some_iff, exists_or]

theorem permitted_iff {c : Char} :
    permitted c = true ↔ Text.isBlank c = true ∨ (ofMark? c).isSome ∨ isWordChar c = true := by
  rw [ofMark?_isSome]
  simp only [permitted, isWordChar, Bool.or_eq_true, List.contains_iff_mem, List.mem_cons,
    List.not_mem_nil, or_false, beq_iff_eq]
  tauto

/-- White space makes no lexeme. -/
theorem of_isBlank {c : Char} (h : Text.isBlank c = true) :
    isWordChar c = false ∧ ofMark? c = none := by
  have hne : ∀ d, Text.isBlank d = false → c ≠ d := by
    rintro d hd rfl
    exact absurd (h.symm.trans hd) (by decide)
  have hund := hne '_' (by decide)
  have hdot := hne '.' (by decide)
  refine ⟨by simp [isWordChar, Text.isAlphanumeric_of_isBlank h, hund, hdot], ?_⟩
  rw [← Option.not_isSome_iff_eq_none, ofMark?_isSome]
  rintro (rfl | rfl | rfl) <;> exact absurd h (by decide)

theorem isWordChar_of_ofMark? {c : Char} (h : (ofMark? c).isSome) : isWordChar c = false := by
  rcases ofMark?_isSome.1 h with rfl | rfl | rfl <;> decide +kernel

/-! ## Comments -/

/-- The text without comments: each line before its first `%`. -/
def uncommented (text : List Char) : List Char :=
  ['\n'].intercalate ((text.splitOn '\n').map (List.takeWhile (· ≠ '%')))

example : uncommented "a% b;\nc".toList = "a\nc".toList := by decide

/-- The lines of a text with `c` in front. -/
theorem splitOn_cons (c : Char) (cs : List Char) : ∃ line lines, cs.splitOn '\n' = line :: lines ∧
    (c :: cs).splitOn '\n' = if c = '\n' then [] :: line :: lines else (c :: line) :: lines := by
  obtain ⟨line, lines, h⟩ := List.exists_cons_of_ne_nil (List.splitOn_ne_nil '\n' cs)
  refine ⟨line, lines, h, ?_⟩
  rw [List.splitOn_cons_eq_if_modifyHead, h]
  simp [List.modifyHead]

theorem uncommented_cons {c : Char} (h : c ≠ '%') (cs : List Char) :
    uncommented (c :: cs) = c :: uncommented cs := by
  obtain ⟨line, lines, hcs, hc⟩ := splitOn_cons c cs
  rw [uncommented, uncommented, hcs, hc]
  split
  · subst c
    simp [List.intercalate]
  · rw [List.map_cons, List.map_cons, List.takeWhile_cons_of_pos (by simpa using h),
      List.intercalate_cons_cons_left]

/-- A comment reaches to the end of its line. -/
theorem uncommented_percent (cs : List Char) :
    uncommented ('%' :: cs) = uncommented (cs.dropWhile (· ≠ '\n')) := by
  induction cs with
  | nil => rfl
  | cons d cs ih =>
    obtain ⟨line, lines, hcs, hd⟩ := splitOn_cons d cs
    obtain ⟨_, _, hdcs, hp⟩ := splitOn_cons '%' (d :: cs)
    rw [hd] at hdcs
    by_cases hn : d = '\n'
    · subst hn
      cases hdcs
      rw [List.dropWhile_cons_of_neg (by simp), uncommented, uncommented, hp, hd]
      rfl
    · rw [if_neg hn] at hdcs
      cases hdcs
      obtain ⟨_, _, hcs', hp'⟩ := splitOn_cons '%' cs
      cases hcs.symm.trans hcs'
      rw [List.dropWhile_cons_of_pos (by simpa using hn), ← ih, uncommented, uncommented, hp, hp']
      rfl

/-! ## Runs -/

/-- Whether two neighbours belong to one run: both are word characters. -/
def glued (a b : Char) : Bool := isWordChar a && isWordChar b

/-- The lexeme of a run; white space has none. -/
def ofRun? : List Char → Option Lexeme
  | [] => none
  | c :: cs => if isWordChar c then some (word (String.ofList (c :: cs))) else ofMark? c

/-- The lexemes of the longest runs. -/
def runs (cs : List Char) : List Lexeme := (cs.splitBy glued).filterMap ofRun?

example : runs "a1 *;b".toList = [.word "a1", .star, .semicolon, .word "b"] := by decide +kernel

/-- A character that is not part of a word makes a run by itself. -/
theorem runs_cons {c : Char} (h : isWordChar c = false) (cs : List Char) :
    runs (c :: cs) = (ofMark? c).toList ++ runs cs := by
  have hsplit : (c :: cs).splitBy glued = [c] :: cs.splitBy glued := by
    refine (List.splitBy_append (l := [c]) fun x hx y _ => ?_).trans rfl
    cases hx
    show (isWordChar c && isWordChar y) = false
    rw [h, Bool.false_and]
  rw [runs, hsplit, List.filterMap_cons, ofRun?, h, runs]
  cases ofMark? c <;> rfl

/-- A word ends where a character follows that is not part of it. -/
theorem runs_word {c : Char} {w cs : List Char} (hc : isWordChar c = true)
    (hw : ∀ d ∈ w, isWordChar d = true) (hcs : ∀ d ∈ cs.head?, isWordChar d = false) :
    runs (c :: w ++ cs) = word (String.ofList (c :: w)) :: runs cs := by
  have hword : (c :: w).splitBy glued = [c :: w] := by
    refine List.splitBy_of_isChain (by simp) (List.Pairwise.isChain ?_)
    refine List.pairwise_of_forall_mem_list fun a ha b hb => ?_
    have hall : ∀ d ∈ c :: w, isWordChar d = true := List.forall_mem_cons.2 ⟨hc, hw⟩
    rw [glued, hall a ha, hall b hb, Bool.and_self]
  have hsplit : (c :: w ++ cs).splitBy glued = (c :: w) :: cs.splitBy glued := by
    rw [List.splitBy_append fun x _ y hy => ?_, hword]
    · rfl
    · rw [glued, hcs y hy, Bool.and_false]
  rw [runs, hsplit, List.filterMap_cons, ofRun?, if_pos hc, runs]

/-! ## The scan -/

/-- All lexemes before the first character that fits nowhere, and that character. -/
def scan : List Char → List Lexeme × Option Char
  | [] => ([], none)
  | c :: cs =>
    if Text.isBlank c then scan cs
    else if c = '%' then scan (cs.dropWhile (· ≠ '\n'))
    else
      match ofMark? c with
      | some mark =>
        let (lexemes, stop) := scan cs
        (mark :: lexemes, stop)
      | none =>
        if isWordChar c then
          let (lexemes, stop) := scan (cs.dropWhile isWordChar)
          (word (String.ofList (c :: cs.takeWhile isWordChar)) :: lexemes, stop)
        else ([], some c)
termination_by cs => cs.length
decreasing_by
  · simp
  · exact Nat.lt_succ_of_le (List.dropWhile_sublist _).length_le
  · simp
  · exact Nat.lt_succ_of_le (List.dropWhile_sublist _).length_le

/-- Reading one lexeme after the other is the scan. -/
theorem scan_eq_of_next (cs : List Char) : scan cs =
    match next cs with
    | .error c => ([], some c)
    | .ok (none, _) => ([], none)
    | .ok (some l, rest) => (l :: (scan rest).1, (scan rest).2) := by
  fun_induction next cs with
  | case1 => rw [scan]
  | case2 c cs hblank ih => rw [scan, if_pos hblank, ih]
  | case3 cs hblank ih => rw [scan, if_neg hblank, if_pos rfl, ih]
  | case4 c cs hblank hc mark hmark => rw [scan, if_neg hblank, if_neg hc, hmark]
  | case5 c cs hblank hc hmark hw => simp only [scan, if_neg hblank, if_neg hc, hmark, if_pos hw]
  | case6 c cs hblank hc hmark hw => simp only [scan, if_neg hblank, if_neg hc, hmark, if_neg hw]

/-- Stretches without `%` are kept. -/
theorem uncommented_append {w : List Char} (hw : ∀ c ∈ w, c ≠ '%') (cs : List Char) :
    uncommented (w ++ cs) = w ++ uncommented cs := by
  induction w with
  | nil => rfl
  | cons c w ih =>
    obtain ⟨hc, hw⟩ := List.forall_mem_cons.1 hw
    rw [List.cons_append, uncommented_cons hc, ih hw, List.cons_append]

/-- Where no word goes on, none does after the comments are taken out. -/
theorem head?_uncommented {cs : List Char} (h : ∀ c ∈ cs.head?, isWordChar c = false) :
    ∀ c ∈ (uncommented cs).head?, isWordChar c = false := by
  cases cs with
  | nil => nofun
  | cons d cs =>
    by_cases hd : d = '%'
    · subst hd
      have hhead := List.head?_dropWhile_not (· ≠ '\n') cs
      rw [uncommented_percent]
      cases hrest : cs.dropWhile (· ≠ '\n') with
      | nil => nofun
      | cons e rest =>
        rw [hrest] at hhead
        obtain rfl : e = '\n' := by simpa using hhead
        rw [uncommented_cons (by decide)]
        intro c hc
        cases hc
        decide +kernel
    · rw [uncommented_cons hd]
      exact h

/-- A word, and what follows it outside comments. -/
theorem uncommented_eq_word (cs : List Char) :
    uncommented cs = cs.takeWhile isWordChar ++ uncommented (cs.dropWhile isWordChar) := by
  rw [← uncommented_append fun d hd => ?_, List.takeWhile_append_dropWhile]
  rintro rfl
  exact absurd (List.mem_takeWhile_imp hd) (by decide +kernel)

theorem head?_after_word (cs : List Char) :
    ∀ d ∈ ((uncommented (cs.dropWhile isWordChar)).takeWhile permitted).head?,
      isWordChar d = false := by
  intro d hd
  rw [List.head?_takeWhile, Option.mem_filter_iff] at hd
  exact head?_uncommented (head?_dropWhile_false isWordChar cs) d hd.1

section
variable {c : Char} (hc : c ≠ '%') (hp : permitted c = true) (cs : List Char)
include hc hp

theorem takeWhile_uncommented_cons :
    (uncommented (c :: cs)).takeWhile permitted = c :: (uncommented cs).takeWhile permitted := by
  rw [uncommented_cons hc, List.takeWhile_cons_of_pos hp]

theorem find?_uncommented_cons :
    (uncommented (c :: cs)).find? (!permitted ·) = (uncommented cs).find? (!permitted ·) := by
  rw [uncommented_cons hc, List.find?_cons_of_neg (by simp [hp])]

end

/-- The scan gives the lexemes before the first character that is not permitted. -/
theorem scan_eq (cs : List Char) :
    scan cs =
      (runs ((uncommented cs).takeWhile permitted), (uncommented cs).find? (!permitted ·)) := by
  fun_induction scan cs with
  | case1 => rfl
  | case2 c cs hblank ih =>
    -- white space
    have hp := permitted_iff.2 (.inl hblank)
    have hc : c ≠ '%' := by
      rintro rfl
      exact absurd hblank (by decide)
    obtain ⟨hw, hmark⟩ := of_isBlank hblank
    rw [ih, takeWhile_uncommented_cons hc hp, find?_uncommented_cons hc hp, runs_cons hw, hmark]
    rfl
  | case3 cs _ ih =>
    -- a comment
    rw [ih, uncommented_percent]
  | case4 c cs _ hc mark hmark lexemes stop hscan ih =>
    -- a mark
    have hsome : (ofMark? c).isSome := by rw [hmark]; rfl
    have hp := permitted_iff.2 (.inr (.inl hsome))
    cases hscan.symm.trans ih
    rw [takeWhile_uncommented_cons hc hp, find?_uncommented_cons hc hp,
      runs_cons (isWordChar_of_ofMark? hsome), hmark]
    rfl
  | case5 c cs _ hc hmark hw lexemes stop hscan ih =>
    -- a word
    have hp : ∀ {d}, isWordChar d = true → permitted d = true := fun h =>
      permitted_iff.2 (.inr (.inr h))
    have hall : ∀ d ∈ cs.takeWhile isWordChar, isWordChar d = true := fun d hd =>
      List.mem_takeWhile_imp hd
    have hnone : (cs.takeWhile isWordChar).find? (!permitted ·) = none :=
      List.find?_eq_none.2 fun d hd => by simp [hp (hall d hd)]
    cases hscan.symm.trans ih
    rw [takeWhile_uncommented_cons hc (hp hw), find?_uncommented_cons hc (hp hw),
      uncommented_eq_word cs, List.takeWhile_append_of_pos fun d hd => hp (hall d hd),
      ← List.cons_append, runs_word hw hall (head?_after_word cs), List.find?_append, hnone,
      Option.none_or]
  | case6 c cs hblank hc hmark hw =>
    -- a character that is not permitted
    have hp : permitted c = false := by
      rw [← Bool.not_eq_true, permitted_iff]
      simp [hblank, hmark, hw]
    rw [uncommented_cons hc, List.takeWhile_cons_of_neg (by simp [hp]),
      List.find?_cons_of_pos (by simp [hp])]
    rfl

end Lexeme

end GrammarInduction
