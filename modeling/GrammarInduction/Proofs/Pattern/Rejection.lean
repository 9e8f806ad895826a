import GrammarInduction.Proofs.Pattern.Program
import Mathlib.Data.List.TakeWhile

/-!
# Rejected pattern programs

`Clause.Fails clause fault`: the clause is not in the language, and `fault` is its first failure. A
program is rejected for its first clause that fails, or for its first character that fits nowhere if
that is found before (`Rejected`, `parseProgram_eq_error_iff`). A clause is judged when the lexeme
after its semicolon is there, so a character that follows directly is found before.
-/

namespace GrammarInduction

/-! ## Computations that fail -/

section
variable {ε α β : Type}

theorem bind_eq_error_iff {x : Except ε α} {f : α → Except ε β} {e : ε} :
    x >>= f = .error e ↔ x = .error e ∨ ∃ a, x = .ok a ∧ f a = .error e := by
  cases x <;> simp [bind, Except.bind]

theorem map_eq_error_iff {x : Except ε α} {f : α → β} {e : ε} :
    x.map f = .error e ↔ x = .error e := by
  cases x <;> simp [Except.map]

theorem exists_ok_iff {x : Except ε α} : (∃ a, x = .ok a) ↔ ∀ e, x ≠ .error e := by
  cases x <;> simp

/-- Where all failures are reported in the same way. -/
theorem eq_error_iff_of_forall {x : Except ε α} {e : ε} (h : ∀ d, x = .error d → d = e) {d : ε} :
    x = .error d ↔ (¬ ∃ a, x = .ok a) ∧ d = e := by
  cases x with
  | ok a => simp
  | error d' =>
    obtain rfl := h d' rfl
    simp [eq_comm]

/-- A list fails as its first element that fails. -/
theorem mapM_eq_error_iff {f : α → Except ε β} {e : ε} : ∀ {xs : List α},
    xs.mapM f = .error e ↔ ∃ before x after, xs = before ++ x :: after ∧
      (∀ a ∈ before, ∃ b, f a = .ok b) ∧ f x = .error e
  | [] => by
    rw [List.mapM_nil]
    refine iff_of_false nofun ?_
    rintro ⟨before, x, after, h, -⟩
    cases before <;> cases h
  | x :: xs => by
    rw [exists_first_cons fun _ y => f y = .error e, ← mapM_eq_error_iff, List.mapM_cons,
      bind_eq_error_iff]
    refine or_congr_right ?_
    rw [← exists_and_right]
    refine exists_congr fun b => and_congr_right fun _ => ?_
    rw [bind_eq_error_iff]
    exact or_iff_left nofun

end

namespace Clause

/-! ## What is wrong with a clause -/

/-- One word for a finite number not below zero. -/
def IsThreshold (field : List Lexeme) : Prop := ∃ w x, field = [.word w] ∧ DenotesThreshold w x

/-- A star or a word that is a variable name. -/
def IsItem (l : Lexeme) : Prop := ∃ i, DenotesItem l i

/-- The lexemes of a field with one space between two. -/
def written (field : List Lexeme) : String := " ".intercalate (field.map Lexeme.text)

/-- The clause has lexemes but is not in the language, and this is the first of its failures: the
number of its fields, its thresholds, its lack of items, and its items from left to right. -/
inductive Fails (clause : List Lexeme) : ClauseFault → Prop
  | fieldCount : clause ≠ [] → (clause.splitOn .comma).length ≠ 3 →
      Fails clause (.fieldCount (clause.splitOn .comma).length)
  | fire {fire wild body : List Lexeme} : clause.splitOn .comma = [fire, wild, body] →
      ¬ IsThreshold fire → Fails clause (.invalidThreshold (written fire))
  | wild {fire wild body : List Lexeme} : clause.splitOn .comma = [fire, wild, body] →
      IsThreshold fire → ¬ IsThreshold wild → Fails clause (.invalidThreshold (written wild))
  | noItems {fire wild : List Lexeme} : clause.splitOn .comma = [fire, wild, []] →
      IsThreshold fire → IsThreshold wild → Fails clause .emptyPattern
  | item {fire wild before after : List Lexeme} {l : Lexeme} :
      clause.splitOn .comma = [fire, wild, before ++ l :: after] →
      IsThreshold fire → IsThreshold wild → (∀ k ∈ before, IsItem k) → ¬ IsItem l →
      Fails clause (.invalidItem l.text)

theorem exists_threshold_ok_iff (field : List Lexeme) :
    (∃ x, threshold field = .ok x) ↔ IsThreshold field := by
  simp only [IsThreshold, threshold_eq_ok_iff]
  exact exists_comm

theorem threshold_eq_error_iff {field : List Lexeme} {fault : ClauseFault} :
    threshold field = .error fault ↔
      ¬ IsThreshold field ∧ fault = .invalidThreshold (written field) := by
  rw [← exists_threshold_ok_iff]
  refine eq_error_iff_of_forall fun e h => ?_
  unfold threshold at h
  split at h
  · split at h
    · split at h
      · cases h
      · exact (Except.error.inj h).symm
    · exact (Except.error.inj h).symm
  · exact (Except.error.inj h).symm

theorem item_eq_error_iff {l : Lexeme} {fault : ClauseFault} :
    item l = .error fault ↔ ¬ IsItem l ∧ fault = .invalidItem l.text := by
  have hok : IsItem l ↔ ∃ i, item l = .ok i := by simp only [IsItem, item_eq_ok_iff]
  rw [hok]
  refine eq_error_iff_of_forall fun e h => ?_
  unfold item at h
  split at h
  · cases h
  · split at h
    · cases h
    · exact (Except.error.inj h).symm
  · exact (Except.error.inj h).symm

theorem items_eq_error_iff {body : List Lexeme} {fault : ClauseFault} :
    items body = .error fault ↔ (body = [] ∧ fault = .emptyPattern) ∨
      ∃ before l after, body = before ++ l :: after ∧ (∀ k ∈ before, IsItem k) ∧ ¬ IsItem l ∧
        fault = .invalidItem l.text := by
  have hmapM : body.mapM item = .error fault ↔
      ∃ before l after, body = before ++ l :: after ∧ (∀ k ∈ before, IsItem k) ∧ ¬ IsItem l ∧
        fault = .invalidItem l.text := by
    simp only [mapM_eq_error_iff, item_eq_ok_iff, item_eq_error_iff, IsItem]
  rw [items, ← hmapM]
  split
  · rename_i hnil
    have hno : body.mapM item ≠ .error fault := by
      rw [hnil, List.mapM_nil]
      intro h
      cases h
    rw [or_iff_left hno, and_iff_right hnil, Except.error.injEq, eq_comm]
  · rename_i hne
    simp [hne]

/-- Fields of another number than three are not looked at. -/
theorem pattern?_eq_of_length_ne {clause : List Lexeme} (h : (clause.splitOn .comma).length ≠ 3) :
    pattern? clause = if clause = [] then .ok none
      else .error (.fieldCount (clause.splitOn .comma).length) := by
  unfold pattern? ofFields
  split
  · rename_i hfields
    have hjoin : [Lexeme.comma].intercalate (clause.splitOn .comma) = clause :=
      List.intercalate_splitOn _
    rw [if_pos]
    rw [← hjoin, hfields]
    rfl
  · rename_i hfields
    rw [hfields] at h
    exact absurd rfl h
  · rename_i hempty _
    rw [if_neg]
    rintro rfl
    exact hempty rfl

/-- Three fields are judged from left to right. -/
theorem pattern?_eq_error_of_fields {clause fire wild body : List Lexeme} {fault : ClauseFault}
    (h : clause.splitOn .comma = [fire, wild, body]) :
    pattern? clause = .error fault ↔
      (¬ IsThreshold fire ∧ fault = .invalidThreshold (written fire)) ∨
        IsThreshold fire ∧ ((¬ IsThreshold wild ∧ fault = .invalidThreshold (written wild)) ∨
          IsThreshold wild ∧ items body = .error fault) := by
  have hdo : pattern? clause = (do
      let x ← threshold fire
      let y ← threshold wild
      let is ← items body
      return some ⟨is, x, y⟩) := by
    rw [pattern?, h]
    -- the fields are looked at from the first one on
    cases fire <;> rfl
  have hreturn : ∀ x y, (do let is ← items body; return some (Pattern.mk is x y)) = .error fault ↔
      items body = .error fault := by
    intro x y
    rw [bind_eq_error_iff]
    refine or_iff_left ?_
    rintro ⟨_, _, h⟩
    cases h
  rw [hdo]
  simp only [bind_eq_error_iff (x := threshold _), hreturn, threshold_eq_error_iff,
    ← exists_threshold_ok_iff fire, ← exists_threshold_ok_iff wild, exists_and_right]

theorem pattern?_eq_error_iff {clause : List Lexeme} {fault : ClauseFault} :
    pattern? clause = .error fault ↔ Fails clause fault := by
  constructor
  · intro h
    by_cases hlen : (clause.splitOn .comma).length = 3
    · obtain ⟨fire, wild, body, hfields⟩ := List.length_eq_three.1 hlen
      rcases (pattern?_eq_error_of_fields hfields).1 h with
        ⟨hno, rfl⟩ | ⟨hfire, ⟨hno, rfl⟩ | ⟨hwild, hitems⟩⟩
      · exact .fire hfields hno
      · exact .wild hfields hfire hno
      · rcases items_eq_error_iff.1 hitems with ⟨rfl, rfl⟩ | ⟨_, l, _, rfl, hgood, hl, rfl⟩
        · exact .noItems hfields hfire hwild
        · exact .item hfields hfire hwild hgood hl
    · rw [pattern?_eq_of_length_ne hlen] at h
      split at h
      · cases h
      · rename_i hne
        cases h
        exact .fieldCount hne hlen
  · intro h
    cases h with
    | fieldCount hne hlen => rw [pattern?_eq_of_length_ne hlen, if_neg hne]
    | fire hfields hno => exact (pattern?_eq_error_of_fields hfields).2 (.inl ⟨hno, rfl⟩)
    | wild hfields hfire hno =>
      exact (pattern?_eq_error_of_fields hfields).2 (.inr ⟨hfire, .inl ⟨hno, rfl⟩⟩)
    | noItems hfields hfire hwild =>
      exact (pattern?_eq_error_of_fields hfields).2
        (.inr ⟨hfire, .inr ⟨hwild, items_eq_error_iff.2 (.inl ⟨rfl, rfl⟩)⟩⟩)
    | item hfields hfire hwild hgood hl =>
      exact (pattern?_eq_error_of_fields hfields).2
        (.inr ⟨hfire, .inr ⟨hwild, items_eq_error_iff.2 (.inr ⟨_, _, _, rfl, hgood, hl, rfl⟩)⟩⟩)

/-- The first clause that fails, by its number and its first failure. -/
def FirstFails (clauses : List (List Lexeme)) (e : ProgramError) : Prop :=
  ∃ before clause after, clauses = before ++ clause :: after ∧
    (∀ valid ∈ before, ∃ m, Denotes valid m) ∧ Fails clause e.fault ∧ e.clause = before.length + 1

theorem patternsFrom_eq_error_iff : ∀ {clauses : List (List Lexeme)} {n : Nat} {e : ProgramError},
    patternsFrom n clauses = .error e ↔ ∃ before clause after, clauses = before ++ clause :: after ∧
      (∀ valid ∈ before, ∃ m, Denotes valid m) ∧ Fails clause e.fault ∧
      e.clause = before.length + n
  | [], n, e => by
    refine iff_of_false nofun ?_
    rintro ⟨before, clause, after, h, -⟩
    cases before <;> cases h
  | clause :: clauses, n, e => by
    rw [exists_first_cons fun i clause => Fails clause e.fault ∧ e.clause = i + n]
    simp only [Nat.zero_add, Nat.add_right_comm _ 1 n, Nat.add_assoc _ n 1,
      ← patternsFrom_eq_error_iff (n := n + 1)]
    rw [← pattern?_eq_error_iff, patternsFrom]
    simp only [← pattern?_eq_ok_iff]
    cases hclause : pattern? clause with
    | error fault =>
      constructor
      · rintro ⟨⟩
        exact .inl ⟨rfl, rfl⟩
      · rintro (⟨hfault, hn⟩ | ⟨⟨m, hm⟩, -⟩)
        · obtain ⟨k, fault'⟩ := e
          cases hfault
          cases hn
          rfl
        · cases hm
    | ok m => simp [map_eq_error_iff]

theorem patternsFrom_one_eq_error_iff {clauses : List (List Lexeme)} {e : ProgramError} :
    patternsFrom 1 clauses = .error e ↔ FirstFails clauses e := patternsFrom_eq_error_iff

/-- Leaving out the last clause leaves out its failures. -/
theorem firstFails_dropLast {clauses : List (List Lexeme)} {e : ProgramError} :
    FirstFails clauses.dropLast e ↔ FirstFails clauses e ∧ e.clause < clauses.length := by
  constructor
  · rintro ⟨before, clause, after, h, hvalid, hfails, hn⟩
    have hne : clauses ≠ [] := by
      rintro rfl
      cases before <;> cases h
    have hlast := List.dropLast_append_getLast hne
    rw [h, List.append_assoc, List.cons_append] at hlast
    refine ⟨⟨before, clause, _, hlast.symm, hvalid, hfails, hn⟩, ?_⟩
    rw [hn, ← hlast]
    simp
  · rintro ⟨⟨before, clause, after, rfl, hvalid, hfails, hn⟩, hlt⟩
    have hne : after ≠ [] := by
      rintro rfl
      simp [hn] at hlt
    refine ⟨before, clause, after.dropLast, ?_, hvalid, hfails, hn⟩
    rw [List.dropLast_append_of_ne_nil (List.cons_ne_nil _ _), List.dropLast_cons_of_ne_nil hne]

end Clause

namespace Lexeme

/-! ## Clauses of a text -/

/-- Runs end where no word goes on. -/
theorem runs_append {as bs : List Char}
    (h : ∀ a ∈ as.getLast?, ∀ b ∈ bs.head?, glued a b = false) :
    runs (as ++ bs) = runs as ++ runs bs := by
  rw [runs, List.splitBy_append h, List.filterMap_append, runs, runs]

/-- A character that is part of no word parts the runs. -/
theorem runs_append_cons {c : Char} (hc : isWordChar c = false) (as bs : List Char) :
    runs (as ++ c :: bs) = runs as ++ ((ofMark? c).toList ++ runs bs) := by
  rw [runs_append, runs_cons hc]
  rintro a - b hb
  cases hb
  rw [glued, hc, Bool.and_false]

theorem mem_of_semicolon_mem_runs {cs : List Char} (h : semicolon ∈ runs cs) : ';' ∈ cs := by
  obtain ⟨run, hrun, hsemi⟩ := List.mem_filterMap.1 h
  rw [← List.flatten_splitBy glued cs, List.mem_flatten]
  refine ⟨run, hrun, ?_⟩
  cases run with
  | nil => cases hsemi
  | cons c w =>
    rw [ofRun?] at hsemi
    split at hsemi
    · cases hsemi
    · obtain rfl : c = ';' := by simpa [ofMark?_eq_some_iff] using hsemi
      exact List.mem_cons_self

/-- The lexemes of a text, cut at its semicolons. -/
def clauses (text : List Char) : List (List Lexeme) := (text.splitOn ';').map runs

theorem runs_intercalate : ∀ pieces : List (List Char),
    runs ([';'].intercalate pieces) = [semicolon].intercalate (pieces.map runs)
  | [] => rfl
  | [piece] => by simp
  | piece :: next :: pieces => by
    have hsemi : isWordChar ';' = false := by decide +kernel
    rw [List.intercalate_cons_cons, List.append_assoc, List.singleton_append,
      runs_append_cons hsemi, runs_intercalate]
    simp only [List.map_cons, List.intercalate_cons_cons, List.append_assoc]
    rfl

/-- The stretches between semicolons hold none. -/
theorem semicolon_notMem {text piece : List Char} (h : piece ∈ text.splitOn ';') : ';' ∉ piece := by
  intro hmem
  rw [List.splitOn_eq_splitOnP] at h
  simpa using (mem_of_mem_splitOnP h hmem).2

/-- The lexemes are cut at the semicolons of the text. -/
theorem splitOn_runs (text : List Char) : (runs text).splitOn .semicolon = clauses text := by
  have hjoin := runs_intercalate (text.splitOn ';')
  rw [List.intercalate_splitOn] at hjoin
  rw [hjoin]
  refine List.splitOn_intercalate _ ?_ (by simp [List.splitOn_ne_nil])
  rintro _ hclause hmem
  obtain ⟨piece, hpiece, rfl⟩ := List.mem_map.1 hclause
  exact semicolon_notMem hpiece (mem_of_semicolon_mem_runs hmem)

theorem length_splitOn (text : List Char) : (text.splitOn ';').length = text.count ';' + 1 := by
  induction text with
  | nil => rfl
  | cons c text ih =>
    rw [List.splitOn_cons_eq_if_modifyHead, List.count_cons]
    split <;> simp_all

theorem runs_eq_nil_iff {cs : List Char} (h : ∀ c ∈ cs, permitted c = true) :
    runs cs = [] ↔ ∀ c ∈ cs, Text.isBlank c = true := by
  induction cs with
  | nil => exact ⟨fun _ => nofun, fun _ => rfl⟩
  | cons c cs ih =>
    obtain ⟨hc, hcs⟩ := List.forall_mem_cons.1 h
    rw [List.forall_mem_cons, ← ih hcs]
    rcases hw : isWordChar c with _ | _
    · rw [runs_cons hw, List.append_eq_nil_iff]
      refine and_congr_left fun _ => ⟨fun hmark => ?_, fun hblank => ?_⟩
      · -- a permitted character is white space if it is no mark and in no word
        refine (permitted_iff.1 hc).resolve_right ?_
        rintro (hsome | hword)
        · simp_all
        · exact absurd (hw.symm.trans hword) (by decide)
      · rw [(of_isBlank hblank).2]
        rfl
    · have hall : ∀ d ∈ cs.takeWhile isWordChar, isWordChar d = true := fun d hd =>
        List.mem_takeWhile_imp hd
      have hword := runs_word hw hall (head?_dropWhile_false isWordChar cs)
      rw [List.cons_append, List.takeWhile_append_dropWhile] at hword
      rw [hword]
      refine iff_of_false nofun fun hblank => ?_
      exact absurd ((of_isBlank hblank.1).1.symm.trans hw) (by decide)

/-! ## Where the scan stops -/

/-- `c` is the first character that fits nowhere, and `before` is what stands before it. -/
structure Stops (text before : List Char) (c : Char) : Prop where
  cut : ∃ after, text = before ++ c :: after
  scanned : ∀ d ∈ before, permitted d = true
  stop : permitted c = false

theorem Stops.eq {text before : List Char} {c : Char} (h : Stops text before c) :
    text.takeWhile permitted = before ∧ text.find? (!permitted ·) = some c := by
  obtain ⟨⟨after, rfl⟩, hp, hc⟩ := h
  constructor
  · exact takeWhile_append_of_head? hp (by simpa using hc)
  · rw [List.find?_eq_some_iff_append]
    exact ⟨by simp [hc], before, after, rfl, by simpa using hp⟩

theorem exists_stops {text : List Char} {c : Char} (h : text.find? (!permitted ·) = some c) :
    ∃ before, Stops text before c := by
  obtain ⟨hc, before, after, rfl, hp⟩ := List.find?_eq_some_iff_append.1 h
  exact ⟨before, ⟨after, rfl⟩, by simpa using hp, by simpa using hc⟩

/-- Nothing but white space follows the semicolon that ends clause number `n`. -/
def EndsClause (before : List Char) (n : Nat) : Prop :=
  ∃ code blanks, before = code ++ ';' :: blanks ∧ (∀ b ∈ blanks, Text.isBlank b = true) ∧
    n = code.count ';' + 1

theorem endsClause_iff {before last : List Char} {ended : List (List Char)}
    (h : before.splitOn ';' = ended ++ [last]) {n : Nat} :
    EndsClause before n ↔ (∀ b ∈ last, Text.isBlank b = true) ∧ n = ended.length ∧ n ≠ 0 := by
  constructor
  · rintro ⟨code, blanks, rfl, hb, rfl⟩
    have hsemi : ';' ∉ blanks := fun hmem => absurd (hb _ hmem) (by decide)
    rw [List.splitOn_append_cons_self, List.splitOn_eq_singleton hsemi] at h
    obtain ⟨hended, hlast⟩ := List.append_inj' h rfl
    cases hlast
    exact ⟨hb, by rw [← hended, length_splitOn], Nat.succ_ne_zero _⟩
  · rintro ⟨hb, rfl, hne⟩
    have hended : ended ≠ [] := fun hnil => hne (by rw [hnil]; rfl)
    have hjoin : [';'].intercalate (before.splitOn ';') = before := List.intercalate_splitOn _
    rw [h, intercalate_concat last hended] at hjoin
    refine ⟨[';'].intercalate ended, last, hjoin.symm, hb, ?_⟩
    rw [← length_splitOn, List.splitOn_intercalate _ (fun piece hpiece => ?_) hended]
    exact semicolon_notMem (by rw [h]; exact List.mem_append_left _ hpiece)

/-- The clause before a stop is judged unless the stop follows it directly. -/
theorem firstFails_judgedBeforeStop {before : List Char} (hp : ∀ d ∈ before, permitted d = true)
    {e : ProgramError} :
    Clause.FirstFails (Clause.judgedBeforeStop (clauses before)) e ↔
      Clause.FirstFails (clauses before).dropLast e ∧ ¬ EndsClause before e.clause := by
  obtain ⟨ended, last, hsplit⟩ : ∃ ended last, before.splitOn ';' = ended ++ [last] :=
    ⟨_, _, (List.dropLast_append_getLast (List.splitOn_ne_nil ';' before)).symm⟩
  have hlast : runs last = [] ↔ ∀ b ∈ last, Text.isBlank b = true := by
    refine runs_eq_nil_iff fun d hd => hp d ?_
    have hmem : last ∈ before.splitOn ';' := by rw [hsplit]; simp
    rw [List.splitOn_eq_splitOnP] at hmem
    exact (mem_of_mem_splitOnP hmem hd).1
  have hclauses : clauses before = ended.map runs ++ [runs last] := by
    rw [clauses, hsplit, List.map_append]
    rfl
  rw [hclauses, Clause.judgedBeforeStop, List.getLast?_concat, List.dropLast_concat]
  split
  · rename_i hnil
    have hnil := Option.some.inj hnil
    rw [Clause.firstFails_dropLast]
    refine and_congr_right fun hfails => ?_
    obtain ⟨valid, clause, after, hended, -, -, hn⟩ := hfails
    have hle := congrArg List.length hended
    rw [List.length_append, List.length_cons, List.length_map] at hle
    rw [endsClause_iff hsplit, and_iff_right (hlast.1 hnil), List.length_map]
    omega
  · rename_i hne
    refine (and_iff_left fun hend => ?_).symm
    exact hne (congrArg some (hlast.2 ((endsClause_iff hsplit).1 hend).1))

end Lexeme

/-! ## Rejected programs -/

/-- The error of a text without comments. If no character stops the scan, it is that of the first
clause that fails. If one does, the clauses that end before it count, and their error is given
unless the stop follows directly on the clause that fails first. -/
inductive Rejected (text : List Char) : ProgramError → Prop
  | clause {e : ProgramError} : (∀ c ∈ text, Lexeme.permitted c = true) →
      Clause.FirstFails (Lexeme.clauses text) e → Rejected text e
  | clauseBeforeStop {before : List Char} {c : Char} {e : ProgramError} :
      Lexeme.Stops text before c → Clause.FirstFails (Lexeme.clauses before).dropLast e →
      ¬ Lexeme.EndsClause before e.clause → Rejected text e
  | stop {before : List Char} {c : Char} : Lexeme.Stops text before c →
      (∀ e, Clause.FirstFails (Lexeme.clauses before).dropLast e →
        Lexeme.EndsClause before e.clause) →
      Rejected text ⟨before.count ';' + 1, .unexpectedChar c⟩

/-- Where nothing stops the scan, all clauses are judged. -/
theorem rejected_iff_of_permitted {text : List Char} (h : ∀ c ∈ text, Lexeme.permitted c = true)
    {e : ProgramError} : Rejected text e ↔ Clause.FirstFails (Lexeme.clauses text) e := by
  have hno : ∀ {before c}, ¬ Lexeme.Stops text before c := by
    rintro before c ⟨⟨after, rfl⟩, -, hc⟩
    rw [h c (by simp)] at hc
    cases hc
  constructor
  · intro hr
    cases hr with
    | clause _ hfails => exact hfails
    | clauseBeforeStop hs _ _ => exact absurd hs hno
    | stop hs _ => exact absurd hs hno
  · exact .clause h

/-- Where the scan stops, either a clause that was judged before is at fault or the stop is. -/
theorem rejected_iff_of_stops {text before : List Char} {c : Char}
    (h : Lexeme.Stops text before c) {e : ProgramError} :
    Rejected text e ↔
      (Clause.FirstFails (Lexeme.clauses before).dropLast e ∧ ¬ Lexeme.EndsClause before e.clause) ∨
        (∀ d, Clause.FirstFails (Lexeme.clauses before).dropLast d →
          Lexeme.EndsClause before d.clause) ∧ e = ⟨before.count ';' + 1, .unexpectedChar c⟩ := by
  constructor
  · intro hr
    cases hr with
    | clause hall _ =>
      have hc := hall c (List.mem_of_find?_eq_some h.eq.2)
      rw [h.stop] at hc
      cases hc
    | clauseBeforeStop hs hfails hend =>
      obtain rfl := hs.eq.1.symm.trans h.eq.1
      exact .inl ⟨hfails, hend⟩
    | stop hs hfails =>
      obtain rfl := hs.eq.1.symm.trans h.eq.1
      obtain rfl := Option.some.inj (hs.eq.2.symm.trans h.eq.2)
      exact .inr ⟨hfails, rfl⟩
  · rintro (⟨hfails, hend⟩ | ⟨hfails, rfl⟩)
    · exact .clauseBeforeStop h hfails hend
    · exact .stop h hfails

/-- The error of a rejected program is the one that its characters outside comments call for. -/
theorem parseProgram_eq_error_iff {program : String} {e : ProgramError} :
    parseProgram program = .error e ↔ Rejected (Lexeme.uncommented program.toList) e := by
  have hscan := Lexeme.scan_eq program.toList
  generalize Lexeme.uncommented program.toList = text at *
  cases hstop : text.find? (!Lexeme.permitted ·) with
  | none =>
    have hall : ∀ c ∈ text, Lexeme.permitted c = true := by simpa using hstop
    rw [hstop, List.takeWhile_eq_self_iff.2 hall] at hscan
    rw [parseProgram_of_scan hscan, Lexeme.splitOn_runs, Clause.patternsFrom_one_eq_error_iff,
      rejected_iff_of_permitted hall]
  | some c =>
    obtain ⟨before, hs⟩ := Lexeme.exists_stops hstop
    have hcount : (Lexeme.clauses before).length = before.count ';' + 1 := by
      rw [Lexeme.clauses, List.length_map, Lexeme.length_splitOn]
    rw [hstop, hs.eq.1] at hscan
    rw [parseProgram_of_stop hscan, Lexeme.splitOn_runs, bind_eq_error_iff, exists_and_right,
      exists_ok_iff, rejected_iff_of_stops hs, hcount, Except.error.injEq, eq_comm (b := e)]
    simp only [ne_eq, Clause.patternsFrom_one_eq_error_iff,
      Lexeme.firstFails_judgedBeforeStop hs.scanned, not_and, not_not]

/-- A stop right after a faulty clause wins over it, and one that comes later does not. -/
example : parseProgram "1, 2; % here;\n - X" = .error ⟨2, .unexpectedChar '-'⟩ ∧
    parseProgram "1, 2; % here;\n X -" = .error ⟨1, .fieldCount 2⟩ := by
  decide +kernel

end GrammarInduction
