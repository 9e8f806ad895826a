import GrammarInduction.Proofs.Pattern.Parser

/-!
# Layout of pattern programs

A text may be cut in two and scanned in two goes where no word and no comment is cut
(`Lexeme.scan_append`): what the second go gives comes after what the first one gave, unless that
stopped. White space and whole comments give nothing (`Lexeme.Layout.scan_append`). So layout may be
put wherever a text may be cut, and it changes neither the patterns of a program nor its error
(`parseProgram_layout`).
-/

namespace GrammarInduction

namespace Lexeme

/-! ## The scan, one lexeme at a time -/

theorem isBlank_of_isWordChar {c : Char} (h : isWordChar c = true) : Text.isBlank c = false := by
  cases hb : Text.isBlank c with
  | false => rfl
  | true => exact absurd ((of_isBlank hb).1.symm.trans h) (by decide)

theorem ofMark?_of_isWordChar {c : Char} (h : isWordChar c = true) : ofMark? c = none := by
  cases hm : ofMark? c with
  | none => rfl
  | some mark =>
    exact absurd ((isWordChar_of_ofMark? (by rw [hm]; rfl)).symm.trans h) (by decide)

theorem isWordChar_percent : isWordChar '%' = false := by decide +kernel

theorem scan_blank {c : Char} (h : Text.isBlank c = true) (cs : List Char) :
    scan (c :: cs) = scan cs := by
  rw [scan, if_pos h]

theorem scan_percent (cs : List Char) : scan ('%' :: cs) = scan (cs.dropWhile (· ≠ '\n')) := by
  rw [scan, if_neg (by decide), if_pos rfl]

theorem scan_mark {c : Char} {mark : Lexeme} (h : ofMark? c = some mark) (cs : List Char) :
    scan (c :: cs) = (mark :: (scan cs).1, (scan cs).2) := by
  have hc : c = ',' ∨ c = ';' ∨ c = '*' := ofMark?_isSome.1 (by rw [h]; rfl)
  have hplain : Text.isBlank c = false ∧ c ≠ '%' := by
    rcases hc with rfl | rfl | rfl <;> decide
  rw [scan, if_neg (by simp [hplain.1]), if_neg hplain.2, h]

theorem scan_word {c : Char} {w cs : List Char} (hw : ∀ d ∈ c :: w, isWordChar d = true)
    (hcs : ∀ d ∈ cs.head?, isWordChar d = false) :
    scan (c :: w ++ cs) = (word (String.ofList (c :: w)) :: (scan cs).1, (scan cs).2) := by
  obtain ⟨hc, hw⟩ := List.forall_mem_cons.1 hw
  have hne : c ≠ '%' := by
    rintro rfl
    exact absurd (isWordChar_percent.symm.trans hc) (by decide)
  rw [List.cons_append, scan, if_neg (by simp [isBlank_of_isWordChar hc]), if_neg hne,
    ofMark?_of_isWordChar hc]
  simp only [if_pos hc, takeWhile_append_of_head? hw hcs, dropWhile_append_of_head? hw hcs]

/-! ## Scanning in two goes -/

/-- Some comment has not come to the end of its line. -/
def EndsInComment (u : List Char) : Prop :=
  ∃ code remark, u = code ++ '%' :: remark ∧ '\n' ∉ remark

theorem not_endsInComment {u : List Char} (h : '%' ∉ u) : ¬ EndsInComment u := by
  rintro ⟨code, remark, rfl, -⟩
  exact h (by simp)

/-- A word goes on from the end of `u` to the beginning of `v`. -/
def Glued (u v : List Char) : Prop :=
  ∃ a ∈ u.getLast?, ∃ b ∈ v.head?, isWordChar a = true ∧ isWordChar b = true

theorem not_glued_of_getLast? {u v : List Char} (h : ∀ a ∈ u.getLast?, isWordChar a = false) :
    ¬ Glued u v := by
  rintro ⟨a, ha, _, -, hword, -⟩
  exact absurd ((h a ha).symm.trans hword) (by decide)

theorem not_glued_of_head? {u v : List Char} (h : ∀ b ∈ v.head?, isWordChar b = false) :
    ¬ Glued u v := by
  rintro ⟨_, -, b, hb, -, hword⟩
  exact absurd ((h b hb).symm.trans hword) (by decide)

/-- `p` and then `q`, which comes to nothing if `p` has stopped. -/
def resume (p q : List Lexeme × Option Char) : List Lexeme × Option Char :=
  match p with
  | (lexemes, some c) => (lexemes, some c)
  | (lexemes, none) => (lexemes ++ q.1, q.2)

theorem resume_cons (l : Lexeme) (p q : List Lexeme × Option Char) :
    resume (l :: p.1, p.2) q = (l :: (resume p q).1, (resume p q).2) := by
  obtain ⟨lexemes, _ | c⟩ := p <;> rfl

/-- Neither a comment nor a word goes on from `u` to `v`. -/
structure Separate (u v : List Char) : Prop where
  comment : ¬ EndsInComment u
  word : ¬ Glued u v

theorem Separate.of_suffix {s u v : List Char} (h : Separate u v) (hs : s <:+ u) :
    Separate s v := by
  obtain ⟨t, rfl⟩ := hs
  constructor
  · rintro ⟨code, remark, rfl, hr⟩
    exact h.comment ⟨t ++ code, remark, (List.append_assoc ..).symm, hr⟩
  · rintro ⟨a, ha, hb⟩
    refine h.word ⟨a, ?_, hb⟩
    rw [List.getLast?_append, ha]
    rfl

/-- After the word that `u` begins with, no word goes on, be it at the end of `u`. -/
theorem Separate.head?_after_word {c : Char} {cs v : List Char} (h : Separate (c :: cs) v)
    (hc : isWordChar c = true) :
    ∀ d ∈ (cs.dropWhile isWordChar ++ v).head?, isWordChar d = false := by
  intro d hd
  cases hrest : cs.dropWhile isWordChar with
  | nil =>
    rw [hrest] at hd
    have hall : ∀ a ∈ c :: cs, isWordChar a = true :=
      List.forall_mem_cons.2 ⟨hc, List.dropWhile_eq_nil_iff.1 hrest⟩
    rw [← Bool.not_eq_true]
    intro hword
    have hlast := List.getLast?_eq_some_getLast (List.cons_ne_nil c cs)
    exact h.word ⟨_, hlast, d, hd, hall _ (List.getLast_mem _), hword⟩
  | cons e rest =>
    rw [List.head?_append_of_ne_nil _ (by simp [hrest])] at hd
    exact head?_dropWhile_false isWordChar cs d hd

/-- Where no comment and no word goes on, the scan can be stopped and resumed. -/
theorem scan_append {u v : List Char} (h : Separate u v) :
    scan (u ++ v) = resume (scan u) (scan v) := by
  fun_induction scan u with
  | case1 => rfl
  | case2 c cs hblank ih =>
    rw [List.cons_append, scan_blank hblank, ih (h.of_suffix (List.suffix_cons c cs))]
  | case3 cs _ ih =>
    -- the comment comes to its end before the cut
    have hend : cs.dropWhile (· ≠ '\n') ≠ [] := by
      intro hnil
      refine h.comment ⟨[], cs, rfl, fun hmem => ?_⟩
      simpa using List.dropWhile_eq_nil_iff.1 hnil '\n' hmem
    rw [List.cons_append, scan_percent, List.dropWhile_append, if_neg (by simpa using hend),
      ih (h.of_suffix ((List.dropWhile_suffix _).trans (List.suffix_cons '%' cs)))]
  | case4 c cs _ hc mark hmark lexemes stop hscan ih =>
    rw [List.cons_append, scan_mark hmark, ih (h.of_suffix (List.suffix_cons c cs)), hscan]
    exact (resume_cons mark (lexemes, stop) (scan v)).symm
  | case5 c cs _ hc hmark hw lexemes stop hscan ih =>
    have hsep := h.of_suffix ((List.dropWhile_suffix isWordChar).trans (List.suffix_cons c cs))
    have hall : ∀ d ∈ c :: cs.takeWhile isWordChar, isWordChar d = true :=
      List.forall_mem_cons.2 ⟨hw, fun d hd => List.mem_takeWhile_imp hd⟩
    have hcut : c :: cs ++ v =
        c :: cs.takeWhile isWordChar ++ (cs.dropWhile isWordChar ++ v) := by
      rw [List.cons_append, List.cons_append, ← List.append_assoc,
        List.takeWhile_append_dropWhile]
    rw [hcut, scan_word hall (h.head?_after_word hw), ih hsep, hscan]
    exact (resume_cons _ (lexemes, stop) (scan v)).symm
  | case6 c cs hblank hc hmark hw =>
    rw [List.cons_append, scan, if_neg hblank, if_neg hc, hmark]
    simp only [if_neg hw]
    rfl

/-! ## Layout -/

/-- White space and whole comments, the ends of their lines included, in any order. -/
inductive Layout : List Char → Prop
  | nil : Layout []
  | blank {c : Char} {w : List Char} : Text.isBlank c = true → Layout w → Layout (c :: w)
  | comment {remark w : List Char} : '\n' ∉ remark → Layout w →
      Layout ('%' :: remark ++ '\n' :: w)

theorem Layout.scan_append {w : List Char} (h : Layout w) (v : List Char) :
    scan (w ++ v) = scan v := by
  induction h with
  | nil => rfl
  | blank hc _ ih => rw [List.cons_append, scan_blank hc, ih]
  | @comment remark w hr _ ih =>
    have hline : ∀ d ∈ remark, (decide (d ≠ '\n')) = true := by
      intro d hd
      rw [decide_eq_true_eq]
      rintro rfl
      exact hr hd
    rw [List.append_assoc, List.cons_append, List.cons_append, scan_percent,
      dropWhile_append_of_head? hline (by simp), scan_blank (by decide), ih]

/-- Layout does not begin with a part of a word. -/
theorem Layout.not_glued {w : List Char} (h : Layout w) (hne : w ≠ []) (u v : List Char) :
    ¬ Glued u (w ++ v) := by
  refine not_glued_of_head? fun b hb => ?_
  cases h with
  | nil => exact absurd rfl hne
  | blank hc _ =>
    cases hb
    exact (of_isBlank hc).1
  | comment hr _ =>
    cases hb
    exact isWordChar_percent

/-- Layout between two texts that may be parted leaves the lexemes as they are. -/
theorem scan_layout {u w v : List Char} (hw : Layout w) (h : Separate u v) :
    scan (u ++ w ++ v) = scan (u ++ v) := by
  by_cases hne : w = []
  · rw [hne, List.append_nil]
  · have hsep : Separate u (w ++ v) := ⟨h.comment, hw.not_glued hne u v⟩
    rw [List.append_assoc, Lexeme.scan_append hsep, hw.scan_append, Lexeme.scan_append h]

end Lexeme

/-- Layout may be put where neither a comment nor a word goes on: the program has the same patterns
or the same error. -/
theorem parseProgram_layout {u w v : String} (hw : Lexeme.Layout w.toList)
    (hu : ¬ Lexeme.EndsInComment u.toList) (huv : ¬ Lexeme.Glued u.toList v.toList) :
    parseProgram (u ++ w ++ v) = parseProgram (u ++ v) := by
  refine parseProgram_eq_of_scan ?_
  simp only [String.toList_append, Lexeme.scan_layout hw ⟨hu, huv⟩]

theorem parseProgram_layout_remark :
    Lexeme.Layout " % ; , -\n".toList ∧ ¬ Lexeme.EndsInComment "2, 2, X*".toList ∧
      ¬ Lexeme.Glued "2, 2, X*".toList "Y; 1, 1".toList ∧
      parseProgram ("2, 2, X*" ++ " % ; , -\n" ++ "Y; 1, 1") =
        parseProgram ("2, 2, X*" ++ "Y; 1, 1") ∧
      parseProgram ("2, 2, X*" ++ "Y; 1, 1") = .error ⟨2, .fieldCount 2⟩ := by
  have hremark : '\n' ∉ " ; , -".toList := by decide
  have hw : Lexeme.Layout " % ; , -\n".toList := .blank (by decide) (.comment hremark .nil)
  have hu : ¬ Lexeme.EndsInComment "2, 2, X*".toList := Lexeme.not_endsInComment (by decide)
  have hlast : "2, 2, X*".toList.getLast? = some '*' := by decide
  have huv : ¬ Lexeme.Glued "2, 2, X*".toList "Y; 1, 1".toList := by
    refine Lexeme.not_glued_of_getLast? fun a ha => ?_
    rw [hlast] at ha
    cases ha
    exact Lexeme.isWordChar_of_ofMark? rfl
  exact ⟨hw, hu, huv, parseProgram_layout hw hu huv, by decide +kernel⟩

end GrammarInduction
