import GrammarInduction.Proofs.Pattern.Parser
import Mathlib.Data.List.Forall2
import Mathlib.Data.List.ReduceOption

/-!
# The language of pattern programs

`Clause.Denotes clause m`: the lexemes of a clause are in the language, and `m` is the pattern that
they stand for, or none where there are no lexemes. A program is accepted if its characters outside
comments are permitted and each of its clauses denotes something; its patterns are what the clauses
denote, in order (`parseProgram_eq_ok_iff`). Its items are written without spaces and read back, so
patterns of one source have the same items (`items_eq_of_source_eq`).
-/

namespace GrammarInduction

/-! ## Computations that succeed -/

section
variable {ε α β : Type}

theorem bind_eq_ok_iff {x : Except ε α} {f : α → Except ε β} {b : β} :
    x >>= f = .ok b ↔ ∃ a, x = .ok a ∧ f a = .ok b := by
  cases x <;> simp [bind, Except.bind]

theorem map_eq_ok_iff {x : Except ε α} {f : α → β} {b : β} :
    x.map f = .ok b ↔ ∃ a, x = .ok a ∧ f a = b := by
  cases x <;> simp [Except.map]

theorem mapM_eq_ok_iff {f : α → Except ε β} :
    ∀ {xs : List α} {ys : List β},
      xs.mapM f = .ok ys ↔ List.Forall₂ (fun x y => f x = .ok y) xs ys
  | [], ys => by
    rw [List.mapM_nil, List.forall₂_nil_left_iff]
    exact ⟨fun h => (Except.ok.inj h).symm, fun h => h ▸ rfl⟩
  | x :: xs, ys => by
    simp only [List.mapM_cons, List.forall₂_cons_left_iff, bind_eq_ok_iff, mapM_eq_ok_iff]
    constructor
    · rintro ⟨y, hy, zs, hzs, h⟩
      exact ⟨y, zs, hy, hzs, (Except.ok.inj h).symm⟩
    · rintro ⟨y, zs, hy, hzs, rfl⟩
      exact ⟨y, hy, zs, hzs, rfl⟩

end

namespace Clause

/-! ## What clauses denote -/

/-- A word that is a finite number not below zero. -/
structure DenotesThreshold (w : String) (x : Binary64) : Prop where
  number : Binary64.ofText? w = some x
  finite : x.isFinite = true
  nonnegative : x.isNonnegative = true

/-- A star, or a word that begins with a letter or an underscore and goes on with letters, numbers
and underscores. -/
inductive DenotesItem : Lexeme → PatternItem → Prop
  | star : DenotesItem .star .wildcard
  | name {c : Char} {cs : List Char} : (Text.isAlphabetic c = true ∨ c = '_') →
      (∀ d ∈ cs, Text.isAlphanumeric d = true ∨ d = '_') →
      DenotesItem (.word (String.ofList (c :: cs))) (.var (String.ofList (c :: cs)))

/-- No lexemes, or two words for the thresholds and some items, with commas between the three. -/
inductive Denotes : List Lexeme → Option Pattern → Prop
  | nothing : Denotes [] none
  | pattern {fire wild : String} {body : List Lexeme} {p : Pattern} :
      DenotesThreshold fire p.fire → DenotesThreshold wild p.wild → body ≠ [] →
      List.Forall₂ DenotesItem body p.items →
      Denotes (.word fire :: .comma :: .word wild :: .comma :: body) (some p)

theorem threshold_eq_ok_iff {field : List Lexeme} {x : Binary64} :
    threshold field = .ok x ↔ ∃ w, field = [.word w] ∧ DenotesThreshold w x := by
  constructor
  · intro h
    unfold threshold at h
    split at h
    · split at h
      · rename_i w _ y hy
        split at h
        · rename_i hcond
          cases h
          rw [Bool.and_eq_true] at hcond
          exact ⟨w, rfl, hy, hcond.1, hcond.2⟩
        · cases h
      · cases h
    · cases h
  · rintro ⟨w, rfl, hn, hf, hnn⟩
    simp [threshold, hn, hf, hnn]

theorem isVariableName_iff {name : String} : isVariableName name = true ↔ ∃ c cs,
    name = String.ofList (c :: cs) ∧ (Text.isAlphabetic c = true ∨ c = '_') ∧
      ∀ d ∈ cs, Text.isAlphanumeric d = true ∨ d = '_' := by
  unfold isVariableName
  constructor
  · intro h
    split at h
    · cases h
    · rename_i c cs hl
      simp only [Bool.and_eq_true, Bool.or_eq_true, beq_iff_eq, List.all_eq_true] at h
      exact ⟨c, cs, by rw [← hl, String.ofList_toList], h⟩
  · rintro ⟨c, cs, rfl, hc, hcs⟩
    rw [String.toList_ofList]
    simpa only [Bool.and_eq_true, Bool.or_eq_true, beq_iff_eq, List.all_eq_true] using ⟨hc, hcs⟩

theorem item_eq_ok_iff {l : Lexeme} {i : PatternItem} : item l = .ok i ↔ DenotesItem l i := by
  constructor
  · intro h
    unfold item at h
    split at h
    · cases h
      exact .star
    · split at h
      · rename_i hname
        cases h
        obtain ⟨c, cs, rfl, hc, hcs⟩ := isVariableName_iff.1 hname
        exact .name hc hcs
      · cases h
    · cases h
  · rintro (_ | ⟨hc, hcs⟩)
    · rfl
    · exact if_pos (isVariableName_iff.2 ⟨_, _, rfl, hc, hcs⟩)

theorem items_eq_ok_iff {body : List Lexeme} {is : List PatternItem} :
    items body = .ok is ↔ body ≠ [] ∧ List.Forall₂ DenotesItem body is := by
  have hall : body.mapM item = .ok is ↔ List.Forall₂ DenotesItem body is := by
    simp only [mapM_eq_ok_iff, item_eq_ok_iff]
  rw [items, ← hall]
  split
  · simp_all
  · simp_all

theorem intercalate_fields (fire wild : String) (body : List Lexeme) :
    [Lexeme.comma].intercalate [[.word fire], [.word wild], body] =
      .word fire :: .comma :: .word wild :: .comma :: body := by
  simp [List.intercalate]

/-- The clause that has these three fields. -/
theorem splitOn_eq_fields_iff {fire wild : String} {body clause : List Lexeme}
    (hbody : Lexeme.comma ∉ body) :
    clause.splitOn .comma = [[.word fire], [.word wild], body] ↔
      clause = .word fire :: .comma :: .word wild :: .comma :: body := by
  constructor
  · intro h
    rw [← intercalate_fields, ← h, List.intercalate_splitOn]
  · rintro rfl
    rw [← intercalate_fields]
    exact List.splitOn_intercalate _ (by simp [hbody]) (by simp)

theorem comma_notMem_of_forall₂ {body : List Lexeme} {is : List PatternItem}
    (h : List.Forall₂ DenotesItem body is) : Lexeme.comma ∉ body := by
  intro hmem
  obtain ⟨i, _, hi⟩ := exists_right_of_forall₂ h hmem
  nomatch hi

theorem pattern?_eq_ok_iff {clause : List Lexeme} {m : Option Pattern} :
    pattern? clause = .ok m ↔ Denotes clause m := by
  constructor
  · intro h
    unfold pattern? ofFields at h
    split at h
    · rename_i hfields
      cases h
      have hjoin : [Lexeme.comma].intercalate (clause.splitOn .comma) = clause :=
        List.intercalate_splitOn _
      rw [hfields] at hjoin
      exact hjoin ▸ .nothing
    · rename_i fire wild body hfields
      obtain ⟨x, hx, h⟩ := bind_eq_ok_iff.1 h
      obtain ⟨y, hy, h⟩ := bind_eq_ok_iff.1 h
      obtain ⟨is, his, h⟩ := bind_eq_ok_iff.1 h
      cases h
      obtain ⟨v, rfl, hv⟩ := threshold_eq_ok_iff.1 hx
      obtain ⟨w, rfl, hw⟩ := threshold_eq_ok_iff.1 hy
      obtain ⟨hne, hall⟩ := items_eq_ok_iff.1 his
      rw [(splitOn_eq_fields_iff (comma_notMem_of_forall₂ hall)).1 hfields]
      exact .pattern hv hw hne hall
    · cases h
  · rintro (_ | ⟨hv, hw, hne, hall⟩)
    · rfl
    · rw [pattern?, (splitOn_eq_fields_iff (comma_notMem_of_forall₂ hall)).2 rfl]
      simp only [ofFields, threshold_eq_ok_iff.2 ⟨_, rfl, hv⟩, threshold_eq_ok_iff.2 ⟨_, rfl, hw⟩,
        items_eq_ok_iff.2 ⟨hne, hall⟩]
      rfl

theorem reduceOption_cons {α : Type} : ∀ (m : Option α) (ms : List (Option α)),
    (m :: ms).reduceOption = m.toList ++ ms.reduceOption
  | none, ms => List.reduceOption_cons_of_none ms
  | some a, ms => List.reduceOption_cons_of_some a ms

theorem patternsFrom_eq_ok_iff : ∀ {clauses : List (List Lexeme)} {n : Nat} {ps : List Pattern},
    patternsFrom n clauses = .ok ps ↔
      ∃ ms, List.Forall₂ Denotes clauses ms ∧ ms.reduceOption = ps
  | [], n, ps => by simp [patternsFrom, List.reduceOption]
  | clause :: clauses, n, ps => by
    simp only [List.forall₂_cons_left_iff, ← pattern?_eq_ok_iff]
    unfold patternsFrom
    cases pattern? clause with
    | error fault => simp
    | ok m =>
      simp only [map_eq_ok_iff, patternsFrom_eq_ok_iff, Except.ok.injEq]
      constructor
      · rintro ⟨_, ⟨ms, hms, rfl⟩, rfl⟩
        exact ⟨m :: ms, ⟨m, ms, rfl, hms, rfl⟩, reduceOption_cons m ms⟩
      · rintro ⟨_, ⟨_, ms, rfl, hms, rfl⟩, rfl⟩
        exact ⟨_, ⟨ms, hms, rfl⟩, (reduceOption_cons m ms).symm⟩

/-! ## The source of a pattern -/

theorem DenotesItem.isWordChar {l : Lexeme} {name : String} (h : DenotesItem l (.var name)) :
    ∀ c ∈ name.toList, Lexeme.isWordChar c = true := by
  cases h with
  | name hc hcs =>
    intro d hd
    rw [String.toList_ofList] at hd
    have hd : Text.isAlphanumeric d = true ∨ d = '_' := by
      rcases List.mem_cons.1 hd with rfl | hd
      · exact hc.imp_left fun h => by rw [Text.isAlphanumeric, h, Bool.true_or]
      · exact hcs d hd
    rcases hd with h | rfl
    · simp [Lexeme.isWordChar, h]
    · simp [Lexeme.isWordChar]

/-- An item is written without spaces. -/
theorem DenotesItem.space_notMem {l : Lexeme} {i : PatternItem} (h : DenotesItem l i) :
    ' ' ∉ i.text.toList := by
  have hspace : Lexeme.isWordChar ' ' = false := (Lexeme.of_isBlank (by decide)).1
  cases i with
  | wildcard => decide
  | var name =>
    intro hmem
    rw [PatternItem.text] at hmem
    rw [h.isWordChar ' ' hmem] at hspace
    cases hspace

theorem space_notMem_texts {is : List PatternItem} (h : ∀ i ∈ is, ∃ l, DenotesItem l i) :
    ∀ t ∈ is.map PatternItem.text, ' ' ∉ t.toList := by
  intro t ht
  obtain ⟨i, hi, rfl⟩ := List.mem_map.1 ht
  obtain ⟨l, hl⟩ := h i hi
  exact hl.space_notMem

/-- No name is written like the wildcard. -/
theorem DenotesItem.text_ne {l : Lexeme} {name : String} (h : DenotesItem l (.var name)) :
    name ≠ "*" := by
  rintro rfl
  have hstar : Lexeme.isWordChar '*' = false :=
    Lexeme.isWordChar_of_ofMark? (Lexeme.ofMark?_isSome.2 (.inr (.inr rfl)))
  rw [h.isWordChar '*' (by decide)] at hstar
  cases hstar

theorem DenotesItem.text_inj {l m : Lexeme} {i j : PatternItem} (hi : DenotesItem l i)
    (hj : DenotesItem m j) (h : i.text = j.text) : i = j := by
  cases i <;> cases j
  · exact congrArg _ h
  · exact absurd h hi.text_ne
  · exact absurd h.symm hj.text_ne
  · rfl

end Clause

/-! ## What programs denote -/

/-- An accepted program is scanned to its end, and its clauses denote its patterns. -/
theorem parseProgram_ok_iff_scan {program : String} {patterns : List Pattern} :
    parseProgram program = .ok patterns ↔
      ∃ lexemes, Lexeme.scan program.toList = (lexemes, none) ∧
        ∃ ms, List.Forall₂ Clause.Denotes (lexemes.splitOn .semicolon) ms ∧
          ms.reduceOption = patterns := by
  rcases hscan : Lexeme.scan program.toList with ⟨lexemes, _ | c⟩
  · rw [parseProgram_of_scan hscan, Clause.patternsFrom_eq_ok_iff]
    simp
  · rw [parseProgram_of_stop hscan, bind_eq_ok_iff]
    simp

/-- The accepted programs and their patterns: only permitted characters outside comments, every
clause in the language, and the patterns of the clauses that have lexemes, in order. -/
theorem parseProgram_eq_ok_iff {program : String} {patterns : List Pattern} :
    parseProgram program = .ok patterns ↔
      (∀ c ∈ Lexeme.uncommented program.toList, Lexeme.permitted c = true) ∧
        ∃ ms, List.Forall₂ Clause.Denotes
            ((Lexeme.runs (Lexeme.uncommented program.toList)).splitOn .semicolon) ms ∧
          ms.reduceOption = patterns := by
  rw [parseProgram_ok_iff_scan, Lexeme.scan_eq]
  generalize Lexeme.uncommented program.toList = text
  constructor
  · rintro ⟨lexemes, hscan, hdenotes⟩
    obtain ⟨hlexemes, hstop⟩ := Prod.mk.inj hscan
    have hall : ∀ c ∈ text, Lexeme.permitted c = true := by simpa using hstop
    rw [List.takeWhile_eq_self_iff.2 hall] at hlexemes
    exact ⟨hall, hlexemes ▸ hdenotes⟩
  · rintro ⟨hall, hdenotes⟩
    have hstop : text.find? (!Lexeme.permitted ·) = none := by simpa using hall
    exact ⟨_, by rw [hstop, List.takeWhile_eq_self_iff.2 hall], hdenotes⟩

/-- The patterns of a program have items, which are items of the language. -/
theorem items_of_parseProgram {program : String} {patterns : List Pattern}
    (h : parseProgram program = .ok patterns) {p : Pattern} (hp : p ∈ patterns) :
    p.items ≠ [] ∧ ∀ i ∈ p.items, ∃ l, Clause.DenotesItem l i := by
  obtain ⟨lexemes, -, ms, hms, rfl⟩ := parseProgram_ok_iff_scan.1 h
  obtain ⟨clause, -, hclause⟩ := exists_left_of_forall₂ hms (List.reduceOption_mem_iff.1 hp)
  cases hclause with
  | pattern _ _ hne hitems =>
    refine ⟨fun hnil => hne ?_, fun i hi => ?_⟩
    · rw [hnil] at hitems
      exact List.forall₂_nil_right_iff.1 hitems
    · obtain ⟨l, -, hl⟩ := exists_left_of_forall₂ hitems hi
      exact ⟨l, hl⟩

/-- Patterns of a program with the same source differ in their thresholds at most. -/
theorem items_eq_of_source_eq {program : String} {patterns : List Pattern}
    (h : parseProgram program = .ok patterns) {p q : Pattern} (hp : p ∈ patterns)
    (hq : q ∈ patterns) (hsource : p.source = q.source) : p.items = q.items := by
  obtain ⟨hpne, hps⟩ := items_of_parseProgram h hp
  obtain ⟨hqne, hqs⟩ := items_of_parseProgram h hq
  have htext := (intercalate_inj rfl (by simpa using hpne) (by simpa using hqne)
    (Clause.space_notMem_texts hps) (Clause.space_notMem_texts hqs)).1 hsource
  have : Nonempty PatternItem := ⟨.wildcard⟩
  have hinj : Set.InjOn PatternItem.text {i | ∃ l, Clause.DenotesItem l i} :=
    fun i ⟨_, hi⟩ j ⟨_, hj⟩ h => hi.text_inj hj h
  exact (map_eq_map_iff_of_injOn hinj hps hqs).1 htext

example : (parseProgram "2, 1, a * % two items\n;; 1, 0, b").toOption.map (·.map Pattern.items) =
    some [[.var "a", .wildcard], [.var "b"]] := by
  decide +kernel

end GrammarInduction
