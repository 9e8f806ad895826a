import GrammarInduction.Proofs.Number.Reading
import GrammarInduction.Proofs.Pattern.Layout
import GrammarInduction.Proofs.Pattern.Program

/-!
# Patterns are read back

`Lexeme.Spells cs lexemes`: the text `cs` gives these lexemes and holds no comment. Texts that spell
something may be joined by separators (`Lexeme.Separator.intercalate`), which is all that writing a
pattern or a program does. The patterns of a program are made of parts that spell one lexeme each
(`readable_of_parseProgram`), and patterns that are made so are read from what is written
(`parseProgram_of_readable`). So programs are read back (`parseProgram_texts`).
-/

namespace GrammarInduction

namespace Lexeme

/-! ## Texts without comments -/

/-- The text gives these lexemes and holds no comment. -/
structure Spells (cs : List Char) (lexemes : List Lexeme) : Prop where
  scanned : scan cs = (lexemes, none)
  plain : '%' ∉ cs

theorem Spells.nil : Spells [] [] := ⟨by rw [scan], nofun⟩

theorem Spells.append {u v : List Char} {ls ms : List Lexeme} (hu : Spells u ls)
    (hv : Spells v ms) (h : ¬ Glued u v) : Spells (u ++ v) (ls ++ ms) := by
  constructor
  · rw [scan_append ⟨not_endsInComment hu.plain, h⟩, hu.scanned, hv.scanned]
    rfl
  · rw [List.mem_append, not_or]
    exact ⟨hu.plain, hv.plain⟩

theorem spells_word {w : String} (hne : w.toList ≠ []) (hw : ∀ c ∈ w.toList, isWordChar c = true) :
    Spells w.toList [word w] := by
  constructor
  · obtain ⟨c, cs, h⟩ := List.exists_cons_of_ne_nil hne
    have hscan : scan (c :: cs ++ []) = _ := scan_word (h ▸ hw) nofun
    rwa [List.append_nil, ← h, String.ofList_toList, Spells.nil.scanned] at hscan
  · intro hmem
    exact absurd (isWordChar_percent.symm.trans (hw _ hmem)) (by decide)

/-- A text between two others, which is no part of a word of theirs. -/
structure Separator (sep : List Char) (marks : List Lexeme) : Prop where
  spells : Spells sep marks
  ne_nil : sep ≠ []
  notWord : ∀ c ∈ sep, isWordChar c = false

theorem isWordChar_space : isWordChar ' ' = false := (of_isBlank (by decide)).1

theorem separator_space : Separator " ".toList [] :=
  ⟨⟨by decide +kernel, by decide⟩, by decide, List.forall_mem_singleton.2 isWordChar_space⟩

theorem separator_comma : Separator ", ".toList [comma] :=
  ⟨⟨by decide +kernel, by decide⟩, by decide, List.forall_mem_cons.2
    ⟨isWordChar_of_ofMark? rfl, List.forall_mem_singleton.2 isWordChar_space⟩⟩

theorem separator_semicolon : Separator ";".toList [semicolon] :=
  ⟨⟨by decide +kernel, by decide⟩, by decide,
    List.forall_mem_singleton.2 (isWordChar_of_ofMark? rfl)⟩

section
variable {sep : List Char} {marks : List Lexeme} (h : Separator sep marks)
include h

theorem Separator.not_glued_left (u : List Char) : ¬ Glued u sep :=
  not_glued_of_head? fun b hb => h.notWord b (List.mem_of_mem_head? hb)

theorem Separator.not_glued_right (u v : List Char) : ¬ Glued (u ++ sep) v := by
  refine not_glued_of_getLast? fun a ha => ?_
  rw [List.getLast?_append, List.getLast?_eq_some_getLast h.ne_nil] at ha
  cases ha
  exact h.notWord _ (List.getLast_mem h.ne_nil)

/-- Texts joined by a separator spell their lexemes, joined by those of the separator. -/
theorem Separator.intercalate {pieces : List (List Char)} {parts : List (List Lexeme)}
    (hall : List.Forall₂ Spells pieces parts) :
    Spells (sep.intercalate pieces) (marks.intercalate parts) := by
  induction hall with
  | nil => exact .nil
  | @cons piece part pieces parts hpiece hall ih =>
    cases hall with
    | nil => simpa using hpiece
    | cons hnext hrest =>
      rw [List.intercalate_cons_cons, List.intercalate_cons_cons]
      exact (hpiece.append h.spells (h.not_glued_left piece)).append ih (h.not_glued_right piece _)

end

/-- Words hold word characters only. -/
theorem isWordChar_of_mem_scan {w : String} {cs : List Char} (h : word w ∈ (scan cs).1) :
    ∀ c ∈ w.toList, isWordChar c = true := by
  fun_induction scan cs with
  | case1 => cases h
  | case2 c cs hblank ih => exact ih h
  | case3 cs _ ih => exact ih h
  | case4 c cs _ _ mark hmark lexemes stop hscan ih =>
    rw [hscan] at ih
    rcases List.mem_cons.1 h with rfl | h
    · simp [ofMark?_eq_some_iff] at hmark
    · exact ih h
  | case5 c cs _ _ _ hw lexemes stop hscan ih =>
    rw [hscan] at ih
    rcases List.mem_cons.1 h with h | h
    · cases h
      rw [String.toList_ofList]
      exact List.forall_mem_cons.2 ⟨hw, fun d hd => List.mem_takeWhile_imp hd⟩
    · exact ih h
  | case6 => cases h

theorem isWordChar_of_isDigit {c : Char} (h : c.isDigit = true) : isWordChar c = true := by
  obtain ⟨hle, hge⟩ : 0x30 ≤ c.toNat ∧ c.toNat ≤ 0x39 := Char.isDigit_iff_toNat.1 h
  have hnum : Text.isNumeric c = true := by
    rw [Text.isNumeric, Text.numericRanges, Text.inRanges, if_neg (Nat.not_lt.2 hle), if_pos hge]
  simp [isWordChar, Text.isAlphanumeric, hnum]

end Lexeme

namespace Binary64

/-! ## Numbers without a sign -/

/-- A finite number that is written without a sign. -/
inductive IsPlain : Binary64 → Prop
  | mk {m : Magnitude} : m ≠ .infinity → IsPlain (.signed false m)

theorem minus_mem_of_splitSign {cs : List Char} (h : (splitSign cs).1 = true) : '-' ∈ cs := by
  unfold splitSign at h
  split at h
  · exact List.mem_cons_self
  · cases h
  · cases h

theorem minus_mem_of_ofText? {text : String} {m : Magnitude}
    (h : ofText? text = some (.signed true m)) : '-' ∈ text.toList := by
  obtain ⟨found, -, h⟩ := Option.map_eq_some_iff.1 h
  cases found with
  | none => cases h
  | some n => exact minus_mem_of_splitSign (Binary64.signed.inj h).1

theorem IsPlain.spells {x : Binary64} (h : x.IsPlain) :
    Lexeme.Spells x.text.toList [.word x.text] := by
  obtain @⟨m, hm⟩ := h
  obtain ⟨c, cs, hchars, hc, hcs⟩ := Decimal.toChars_eq_cons (shortest m)
  have htext : (text (.signed false m)).toList = c :: cs := by
    rw [text, if_neg hm, hchars]
    exact String.toList_ofList
  refine Lexeme.spells_word (by simp [htext]) ?_
  rw [htext]
  refine List.forall_mem_cons.2 ⟨Lexeme.isWordChar_of_isDigit hc, fun d hd => ?_⟩
  rcases hcs d hd with hd | rfl
  · exact Lexeme.isWordChar_of_isDigit hd
  · simp [Lexeme.isWordChar]

theorem IsPlain.denotes {x : Binary64} (h : x.IsPlain) : Clause.DenotesThreshold x.text x := by
  refine ⟨ofText?_text x, ?_, ?_⟩
  · obtain ⟨hm⟩ := h
    exact decide_eq_true (Fin.val_lt_last hm)
  · cases h
    rfl

/-- A word has no minus sign. -/
theorem isPlain_of_denotes {w : String} {x : Binary64} (h : Clause.DenotesThreshold w x)
    (hw : ∀ c ∈ w.toList, Lexeme.isWordChar c = true) : x.IsPlain := by
  cases x with
  | nan => cases h.finite
  | signed negative m =>
    cases negative with
    | true =>
      have hminus := hw _ (minus_mem_of_ofText? h.number)
      exact absurd hminus (by decide +kernel)
    | false => exact ⟨Fin.ne_of_lt (of_decide_eq_true h.finite)⟩

end Binary64

namespace Clause

theorem DenotesItem.spells {l : Lexeme} {i : PatternItem} (h : DenotesItem l i) :
    Lexeme.Spells i.text.toList [l] := by
  cases i with
  | wildcard =>
    cases h
    exact ⟨by decide +kernel, by decide⟩
  | var name =>
    have hword := h.isWordChar
    cases h with
    | @name c cs _ _ =>
      refine Lexeme.spells_word (w := String.ofList (c :: cs)) ?_ hword
      rw [String.toList_ofList]
      exact List.cons_ne_nil c cs

theorem Denotes.semicolon_notMem {clause : List Lexeme} {m : Option Pattern}
    (h : Denotes clause m) : Lexeme.semicolon ∉ clause := by
  cases h with
  | nothing => nofun
  | pattern _ _ _ hitems =>
    simp only [List.mem_cons, reduceCtorEq, false_or]
    intro hmem
    obtain ⟨i, -, hi⟩ := exists_right_of_forall₂ hitems hmem
    nomatch hi

end Clause

/-! ## Patterns that can be read -/

/-- The thresholds are written without a sign, and each item is one of the language. -/
structure Pattern.Readable (p : Pattern) : Prop where
  fire : p.fire.IsPlain
  wild : p.wild.IsPlain
  items : ∃ body, body ≠ [] ∧ List.Forall₂ Clause.DenotesItem body p.items

/-- The patterns of a program can be read. -/
theorem readable_of_parseProgram {program : String} {patterns : List Pattern}
    (h : parseProgram program = .ok patterns) {p : Pattern} (hp : p ∈ patterns) : p.Readable := by
  obtain ⟨lexemes, hscan, ms, hms, rfl⟩ := parseProgram_ok_iff_scan.1 h
  obtain ⟨clause, hclause, hp⟩ := exists_left_of_forall₂ hms (List.reduceOption_mem_iff.1 hp)
  have hword : ∀ w, .word w ∈ clause → ∀ c ∈ w.toList, Lexeme.isWordChar c = true := by
    intro w hw
    rw [List.splitOn_eq_splitOnP] at hclause
    have hmem : .word w ∈ (Lexeme.scan program.toList).1 := by
      rw [hscan]
      exact (mem_of_mem_splitOnP hclause hw).1
    exact Lexeme.isWordChar_of_mem_scan hmem
  cases hp with
  | pattern hfire hwild hne hitems =>
    exact ⟨Binary64.isPlain_of_denotes hfire (hword _ (by simp)),
      Binary64.isPlain_of_denotes hwild (hword _ (by simp)), _, hne, hitems⟩

/-- The text of a pattern that can be read gives the lexemes of a clause that denotes it. -/
theorem Pattern.Readable.exists_clause {p : Pattern} (h : p.Readable) :
    ∃ clause, Lexeme.Spells p.text.toList clause ∧ Clause.Denotes clause (some p) := by
  obtain ⟨hfire, hwild, body, hne, hitems⟩ := h
  have hsource : Lexeme.Spells p.source.toList body := by
    have hall : List.Forall₂ Lexeme.Spells ((p.items.map PatternItem.text).map String.toList)
        (body.map fun l => [l]) := by
      rw [List.map_map, List.forall₂_map_left_iff, List.forall₂_map_right_iff]
      exact hitems.flip.imp fun i l hi => hi.spells
    have hjoin := Lexeme.separator_space.intercalate hall
    rwa [← String.toList_intercalate, nil_intercalate, ← List.flatMap_def,
      List.flatMap_singleton'] at hjoin
  have hfields : List.Forall₂ Lexeme.Spells
      ([p.fire.text, p.wild.text, p.source].map String.toList)
      [[.word p.fire.text], [.word p.wild.text], body] :=
    .cons hfire.spells (.cons hwild.spells (.cons hsource .nil))
  have hjoin := Lexeme.separator_comma.intercalate hfields
  rw [← String.toList_intercalate, Clause.intercalate_fields] at hjoin
  exact ⟨_, hjoin, .pattern hfire.denotes hwild.denotes hne hitems⟩

/-- Patterns that can be read are read from their texts with semicolons between them. -/
theorem parseProgram_of_readable {patterns : List Pattern} (h : ∀ p ∈ patterns, p.Readable) :
    parseProgram (";".intercalate (patterns.map Pattern.text)) = .ok patterns := by
  choose! clause hspells hdenotes using fun p hp => (h p hp).exists_clause
  have hall : List.Forall₂ Lexeme.Spells ((patterns.map Pattern.text).map String.toList)
      (patterns.map clause) := by
    rw [List.map_map, List.forall₂_map_left_iff, List.forall₂_map_right_iff, List.forall₂_same]
    exact hspells
  have hjoin := Lexeme.separator_semicolon.intercalate hall
  rw [← String.toList_intercalate] at hjoin
  refine parseProgram_ok_iff_scan.2 ⟨_, hjoin.scanned, ?_⟩
  cases patterns with
  | nil => exact ⟨[none], .cons .nothing .nil, rfl⟩
  | cons p ps =>
    refine ⟨(p :: ps).map some, ?_, by simp [List.reduceOption]⟩
    rw [List.splitOn_intercalate _ ?_ (by simp), List.forall₂_map_left_iff,
      List.forall₂_map_right_iff, List.forall₂_same]
    · exact hdenotes
    · intro _ hmem
      obtain ⟨q, hq, rfl⟩ := List.mem_map.1 hmem
      exact (hdenotes q hq).semicolon_notMem

/-- The patterns of a program, written with semicolons between them, are read as the same
patterns. -/
theorem parseProgram_texts {program : String} {patterns : List Pattern}
    (h : parseProgram program = .ok patterns) :
    parseProgram (";".intercalate (patterns.map Pattern.text)) = .ok patterns :=
  parseProgram_of_readable fun _ hp => readable_of_parseProgram h hp

/-- With the thresholds 2 and 0.5, and 1000 and 0. -/
def twoPatterns : List Pattern :=
  [⟨[.var "X", .wildcard, .var "_y"], .signed false ⟨0x4000000000000000, by decide⟩,
      .signed false ⟨0x3FE0000000000000, by decide⟩⟩,
    ⟨[.wildcard], .signed false ⟨0x408F400000000000, by decide⟩, .zero⟩]

theorem parseProgram_texts_twoPatterns :
    parseProgram "2, .50, X * _y; % none\n; 1e3, 0, *" = .ok twoPatterns ∧
      ";".intercalate (twoPatterns.map Pattern.text) = "2, 0.5, X * _y;1000, 0, *" ∧
      parseProgram (";".intercalate (twoPatterns.map Pattern.text)) = .ok twoPatterns := by
  have h : parseProgram "2, .50, X * _y; % none\n; 1e3, 0, *" = .ok twoPatterns := by
    decide +kernel
  exact ⟨h, by decide +kernel, parseProgram_texts h⟩

end GrammarInduction
