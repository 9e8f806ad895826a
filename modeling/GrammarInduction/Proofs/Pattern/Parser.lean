import GrammarInduction.Pattern.Program
import GrammarInduction.Proofs.Lists
import GrammarInduction.Proofs.Pattern.Lexeme

/-!
# Programs read at once

The parser has one lexeme in its hand and never sees more of the text. Here a program is read at
once: all lexemes are scanned and cut at the semicolons, and then the clauses are judged from the
first on. Both readings agree (`parseProgram_of_scan`). Where the scan stops in front of a character
that fits nowhere, the parser has judged the clauses before the one that the scan stops in, except
for the last of them if nothing but its semicolon was taken before the stop
(`parseProgram_of_stop`).

`Parser.Ahead p lexemes stop` says what a parser is going to find, and each operation of the parser
takes lexemes off that list.
-/

namespace GrammarInduction

/-! ## Clauses one after the other -/

namespace Clause

/-- The pattern of the lexemes between two semicolons; none if there are none. -/
def pattern? (clause : List Lexeme) : Except ClauseFault (Option Pattern) :=
  ofFields (clause.splitOn .comma)

/-- The patterns of clauses that are numbered from `n`. -/
def patternsFrom (n : Nat) : List (List Lexeme) → Except ProgramError (List Pattern)
  | [] => .ok []
  | clause :: clauses =>
    match pattern? clause with
    | .error fault => .error ⟨n, fault⟩
    | .ok found => (patternsFrom (n + 1) clauses).map (found.toList ++ ·)

/-- The clauses that are judged before the scan stops, which is in the last one. -/
def judgedBeforeStop (clauses : List (List Lexeme)) : List (List Lexeme) :=
  if clauses.getLast? = some [] then clauses.dropLast.dropLast else clauses.dropLast

end Clause

namespace Parser

/-! ## What is ahead -/

/-- The lexemes that are ahead of a parser, with the one in its hand, and the character where the
scan is going to stop. -/
inductive Ahead : Parser → List Lexeme → Option Char → Prop
  | done {n : Nat} : Ahead ⟨[], none, n⟩ [] none
  | lexeme {rest : List Char} {l : Lexeme} {n : Nat} {ls : List Lexeme} {stop : Option Char} :
      Lexeme.scan rest = (ls, stop) → Ahead ⟨rest, some l, n⟩ (l :: ls) stop

variable {p : Parser} {l : Lexeme} {ls clause tail : List Lexeme} {stop : Option Char}

theorem Ahead.withClause (h : p.Ahead ls stop) (n : Nat) : { p with clause := n }.Ahead ls stop := by
  cases h with
  | done => exact .done
  | lexeme h => exact .lexeme h

/-- The next lexeme can be read if the scan does not stop in front of it. -/
theorem ahead_of_scan {cs : List Char} (h : Lexeme.scan cs = (ls, stop))
    (hgo : ls ≠ [] ∨ stop = none) (n : Nat) :
    ∃ current rest, Lexeme.next cs = .ok (current, rest) ∧ Ahead ⟨rest, current, n⟩ ls stop := by
  rw [Lexeme.scan_eq_of_next] at h
  rcases hnext : Lexeme.next cs with c | ⟨current, rest⟩ <;> rw [hnext] at h
  · cases h
    simp at hgo
  · refine ⟨current, rest, rfl, ?_⟩
    cases current with
    | none =>
      cases h
      cases Lexeme.rest_of_next_none hnext
      exact .done
    | some l =>
      cases h
      exact .lexeme rfl

theorem next_of_scan_stop {cs : List Char} {c : Char} (h : Lexeme.scan cs = ([], some c)) :
    Lexeme.next cs = .error c := by
  rw [Lexeme.scan_eq_of_next] at h
  rcases hnext : Lexeme.next cs with d | ⟨_ | l, rest⟩ <;> rw [hnext] at h <;> cases h
  rfl

theorem advance_of_ahead (h : p.Ahead (l :: ls) stop) (hgo : ls ≠ [] ∨ stop = none) :
    ∃ q, p.advance = .ok (some l, q) ∧ q.Ahead ls stop ∧ q.clause = p.clause := by
  cases h with
  | @lexeme rest _ n _ _ hscan =>
    obtain ⟨current, rest', hnext, hq⟩ := ahead_of_scan hscan hgo n
    exact ⟨⟨rest', current, n⟩, by rw [advance, hnext], hq, rfl⟩

theorem advance_of_done (h : p.Ahead [] none) : p.advance = .ok (none, p) := by
  cases h with
  | done => rw [advance, Lexeme.next]

theorem advance_of_stop {c : Char} (h : p.Ahead [l] (some c)) :
    p.advance = .error ⟨p.nextClause, .unexpectedChar c⟩ := by
  cases h with
  | lexeme hscan => rw [advance, next_of_scan_stop hscan]

/-- The number of the clause after the current lexeme. -/
theorem Ahead.nextClause_eq (h : p.Ahead (l :: ls) stop) :
    p.nextClause = if l = .semicolon then p.clause + 1 else p.clause := by
  cases h with
  | lexeme => simp [nextClause]

/-! ## The fields of one clause -/

/-- The fields that are there when the lexemes of `clause` have been added. -/
def extend (fields : List (List Lexeme)) (field clause : List Lexeme) : List (List Lexeme) :=
  fields ++ (clause.splitOn .comma).modifyHead (field ++ ·)

theorem readFields_eq (p : Parser) (fields : List (List Lexeme)) (field : List Lexeme) :
    p.readFields fields field =
      match p.advance with
      | .error e => .error e
      | .ok (none, q) => .ok (fields ++ [field], q)
      | .ok (some .semicolon, q) => .ok (fields ++ [field], q)
      | .ok (some .comma, q) => q.readFields (fields ++ [field]) []
      | .ok (some l, q) => q.readFields fields (field ++ [l]) := by
  rw [readFields]
  split <;> simp_all

theorem extend_nil (fields : List (List Lexeme)) (field : List Lexeme) :
    extend fields field [] = fields ++ [field] := by
  simp [extend]

theorem extend_comma (fields : List (List Lexeme)) (field clause : List Lexeme) :
    extend fields field (.comma :: clause) = extend (fields ++ [field]) [] clause := by
  obtain ⟨first, rest, h⟩ := List.exists_cons_of_ne_nil (List.splitOn_ne_nil Lexeme.comma clause)
  simp [extend, List.splitOn_cons_eq_if_modifyHead, h]

theorem extend_cons (hl : l ≠ .comma) (fields : List (List Lexeme)) (field clause : List Lexeme) :
    extend fields field (l :: clause) = extend fields (field ++ [l]) clause := by
  obtain ⟨first, rest, h⟩ := List.exists_cons_of_ne_nil (List.splitOn_ne_nil Lexeme.comma clause)
  simp [extend, List.splitOn_cons_eq_if_modifyHead, h, hl]

theorem extend_nil_nil (clause : List Lexeme) : extend [] [] clause = clause.splitOn .comma := by
  obtain ⟨first, rest, h⟩ := List.exists_cons_of_ne_nil (List.splitOn_ne_nil Lexeme.comma clause)
  simp [extend, h]

/-- A lexeme of a clause is added to its fields. -/
theorem readFields_of_advance {p q : Parser} (h : p.advance = .ok (some l, q))
    (hsemi : l ≠ .semicolon) (fields : List (List Lexeme)) (field : List Lexeme) :
    ∃ before last, p.readFields fields field = q.readFields before last ∧
      ∀ clause, extend before last clause = extend fields field (l :: clause) := by
  by_cases hcomma : l = .comma
  · subst hcomma
    refine ⟨fields ++ [field], [], ?_, fun clause => (extend_comma ..).symm⟩
    rw [readFields_eq, h]
  · refine ⟨fields, field ++ [l], ?_, fun clause => (extend_cons hcomma ..).symm⟩
    rw [readFields_eq, h]
    cases l <;> simp_all

/-- The lexemes of a clause are added to its fields as long as more can be read. -/
theorem readFields_append : ∀ {clause : List Lexeme} {p : Parser}, p.Ahead (clause ++ tail) stop →
    Lexeme.semicolon ∉ clause → (tail ≠ [] ∨ stop = none) →
    ∀ (fields : List (List Lexeme)) (field : List Lexeme),
      ∃ (q : Parser) (before : List (List Lexeme)) (last : List Lexeme),
        p.readFields fields field = q.readFields before last ∧ q.Ahead tail stop ∧
          q.clause = p.clause ∧ before ++ [last] = extend fields field clause
  | [], p, h, _, _, fields, field => ⟨p, fields, field, rfl, h, rfl, (extend_nil ..).symm⟩
  | l :: clause, p, h, hsemi, hgo, fields, field => by
    rw [List.mem_cons, not_or] at hsemi
    obtain ⟨hl, hsemi⟩ := hsemi
    have hgo' : clause ++ tail ≠ [] ∨ stop = none := hgo.imp_left fun h => by simp [h]
    obtain ⟨q, hq, hahead, hn⟩ := advance_of_ahead h hgo'
    obtain ⟨before, last, hread, hextend⟩ := readFields_of_advance hq (Ne.symm hl) fields field
    obtain ⟨q', before', last', hread', hahead', hn', hfields⟩ :=
      readFields_append hahead hsemi hgo before last
    exact ⟨q', before', last', hread.trans hread', hahead', hn'.trans hn,
      hfields.trans (hextend clause)⟩

/-- At the end of the text the last clause is complete. -/
theorem readFields_of_done (h : p.Ahead clause none) (hsemi : .semicolon ∉ clause) :
    ∃ q, p.readFields [] [] = .ok (clause.splitOn .comma, q) ∧ q.Ahead [] none ∧
      q.clause = p.clause := by
  rw [← List.append_nil clause] at h
  obtain ⟨q, before, last, hread, hq, hn, hfields⟩ :=
    readFields_append h hsemi (.inr rfl) [] []
  refine ⟨q, ?_, hq, hn⟩
  rw [hread, ← extend_nil_nil, ← hfields]
  rw [readFields_eq, advance_of_done hq]

/-- With its semicolon taken, a clause is complete. -/
theorem readFields_of_semicolon (h : p.Ahead (clause ++ .semicolon :: tail) stop)
    (hsemi : .semicolon ∉ clause) (hgo : tail ≠ [] ∨ stop = none) :
    ∃ q, p.readFields [] [] = .ok (clause.splitOn .comma, q) ∧ q.Ahead tail stop ∧
      q.clause = p.clause := by
  obtain ⟨q, before, last, hread, hq, hn, hfields⟩ :=
    readFields_append h hsemi (.inl (List.cons_ne_nil _ _)) [] []
  obtain ⟨r, hr, hahead, hn'⟩ := advance_of_ahead hq hgo
  refine ⟨r, ?_, hahead, hn'.trans hn⟩
  rw [hread, ← extend_nil_nil, ← hfields, readFields_eq, hr]

/-- The scan stops after a lexeme of the clause. -/
theorem readFields_of_stop {c : Char} (h : p.Ahead (clause ++ [l]) (some c))
    (hsemi : .semicolon ∉ clause) :
    p.readFields [] [] =
      .error ⟨if l = .semicolon then p.clause + 1 else p.clause, .unexpectedChar c⟩ := by
  obtain ⟨q, before, last, hread, hq, hn, -⟩ :=
    readFields_append h hsemi (.inl (List.cons_ne_nil _ _)) [] []
  rw [hread, ← hn, ← hq.nextClause_eq, readFields_eq, advance_of_stop hq]

/-! ## Clauses -/

theorem parseClause_of_fields {q : Parser}
    (h : p.readFields [] [] = .ok (clause.splitOn .comma, q)) (hn : q.clause = p.clause) :
    p.parseClause =
      match Clause.pattern? clause with
      | .error fault => .error ⟨p.clause, fault⟩
      | .ok found => .ok (found, q) := by
  rw [parseClause, h, ← hn]
  rfl

theorem parseClauses_of_done (h : p.Ahead [] none) (patterns : List Pattern) :
    p.parseClauses patterns = .ok patterns := by
  cases h with
  | done => rw [parseClauses, if_neg (by simp)]

theorem parseClauses_eq (h : p.Ahead (l :: ls) stop) (patterns : List Pattern) :
    p.parseClauses patterns =
      match p.parseClause with
      | .error e => .error e
      | .ok (found, q) =>
        { q with clause := q.clause + 1 }.parseClauses (patterns ++ found.toList) := by
  cases h with
  | lexeme =>
    rw [parseClauses, if_pos Option.isSome_some]
    split <;> simp_all

theorem parseClauses_of_stop_after {c : Char} (h : p.Ahead (clause ++ [l]) (some c))
    (hsemi : .semicolon ∉ clause) (patterns : List Pattern) :
    p.parseClauses patterns =
      .error ⟨if l = .semicolon then p.clause + 1 else p.clause, .unexpectedChar c⟩ := by
  obtain ⟨first, rest, hcons⟩ := List.exists_cons_of_ne_nil
    (List.append_ne_nil_of_right_ne_nil clause (List.cons_ne_nil l []))
  rw [parseClauses_eq (hcons ▸ h), parseClause, readFields_of_stop h hsemi]

/-- A clause is judged when the lexeme after its semicolon is there, and the parser goes on. -/
theorem parseClauses_of_semicolon (h : p.Ahead (clause ++ .semicolon :: tail) stop)
    (hsemi : .semicolon ∉ clause) (hgo : tail ≠ [] ∨ stop = none) (patterns : List Pattern) :
    ∃ q : Parser, q.Ahead tail stop ∧ q.clause = p.clause + 1 ∧
      p.parseClauses patterns =
        match Clause.pattern? clause with
        | .error fault => .error ⟨p.clause, fault⟩
        | .ok found => q.parseClauses (patterns ++ found.toList) := by
  obtain ⟨q, hq, hahead, hn⟩ := readFields_of_semicolon h hsemi hgo
  obtain ⟨l, ls, hcons⟩ := List.exists_cons_of_ne_nil
    (List.append_ne_nil_of_right_ne_nil clause (List.cons_ne_nil Lexeme.semicolon tail))
  refine ⟨{ q with clause := q.clause + 1 }, hahead.withClause _, congrArg (· + 1) hn, ?_⟩
  rw [parseClauses_eq (hcons ▸ h), parseClause_of_fields hq hn]
  cases Clause.pattern? clause <;> rfl

/-- The last clause may lack its semicolon. -/
theorem parseClauses_of_last (h : p.Ahead clause none) (hsemi : .semicolon ∉ clause)
    (patterns : List Pattern) :
    p.parseClauses patterns =
      match Clause.pattern? clause with
      | .error fault => .error ⟨p.clause, fault⟩
      | .ok found => .ok (patterns ++ found.toList) := by
  cases clause with
  | nil =>
    rw [parseClauses_of_done h]
    exact congrArg Except.ok (List.append_nil patterns).symm
  | cons l ls =>
    obtain ⟨q, hq, hahead, hn⟩ := readFields_of_done h hsemi
    rw [parseClauses_eq h, parseClause_of_fields hq hn]
    cases Clause.pattern? (l :: ls) with
    | error fault => rfl
    | ok found => exact parseClauses_of_done (hahead.withClause _) _

/-- To the end of the text. -/
theorem parseClauses_of_scan : ∀ {clauses : List (List Lexeme)} {p : Parser}
    {patterns : List Pattern}, clauses ≠ [] → (∀ clause ∈ clauses, .semicolon ∉ clause) →
      p.Ahead ([.semicolon].intercalate clauses) none →
      p.parseClauses patterns = (Clause.patternsFrom p.clause clauses).map (patterns ++ ·)
  | [], _, _, hne, _, _ => absurd rfl hne
  | [clause], p, patterns, _, hsemi, h => by
    rw [List.intercalate_singleton] at h
    rw [parseClauses_of_last h (hsemi clause List.mem_cons_self), Clause.patternsFrom]
    cases Clause.pattern? clause with
    | error fault => rfl
    | ok found => simp [Clause.patternsFrom, Except.map]
  | clause :: next :: clauses, p, patterns, _, hsemi, h => by
    obtain ⟨hclause, hrest⟩ := List.forall_mem_cons.1 hsemi
    rw [List.intercalate_cons_cons, List.append_assoc, List.singleton_append] at h
    obtain ⟨q, hq, hn, heq⟩ := parseClauses_of_semicolon h hclause (.inr rfl) patterns
    rw [heq, Clause.patternsFrom]
    cases Clause.pattern? clause with
    | error fault => rfl
    | ok found =>
      show q.parseClauses _ = _
      rw [parseClauses_of_scan (List.cons_ne_nil _ _) hrest hq, hn]
      cases Clause.patternsFrom (p.clause + 1) (next :: clauses) <;> simp [Except.map]

/-- The clauses after the first, if there are more lexemes. -/
theorem judgedBeforeStop_cons {clauses : List (List Lexeme)} (hne : clauses ≠ [])
    (hmore : clauses ≠ [[]]) :
    Clause.judgedBeforeStop (clause :: clauses) = clause :: Clause.judgedBeforeStop clauses := by
  have hlast : (clause :: clauses).getLast? = clauses.getLast? := by
    obtain ⟨last, hlast⟩ := Option.isSome_iff_exists.1 (List.getLast?_isSome.2 hne)
    rw [List.getLast?_cons, hlast]
    rfl
  rw [Clause.judgedBeforeStop, Clause.judgedBeforeStop, hlast, List.dropLast_cons_of_ne_nil hne]
  split
  · rename_i hempty
    refine List.dropLast_cons_of_ne_nil fun hnil => hmore ?_
    rw [← List.dropLast_append_getLast? _ hempty, hnil, List.nil_append]
  · rfl

theorem intercalate_ne_nil {clauses : List (List Lexeme)} (hne : clauses ≠ [])
    (hmore : clauses ≠ [[]]) (hsemi : ∀ clause ∈ clauses, .semicolon ∉ clause) :
    [Lexeme.semicolon].intercalate clauses ≠ [] := by
  intro hnil
  have hsplit := List.splitOn_intercalate Lexeme.semicolon hsemi hne
  rw [hnil] at hsplit
  exact hmore hsplit.symm

/-- To a character that fits nowhere, which is in the last clause. -/
theorem parseClauses_of_stop {c : Char} {n : Nat} : ∀ {clauses : List (List Lexeme)} {p : Parser}
    {patterns : List Pattern}, clauses ≠ [] → (∀ clause ∈ clauses, .semicolon ∉ clause) →
      p.Ahead ([.semicolon].intercalate clauses) (some c) → n + 1 = p.clause + clauses.length →
      p.parseClauses patterns = (do
        let _ ← Clause.patternsFrom p.clause (Clause.judgedBeforeStop clauses)
        .error ⟨n, .unexpectedChar c⟩)
  | [], _, _, hne, _, _, _ => absurd rfl hne
  | [clause], p, patterns, _, hsemi, h, hn => by
    rw [List.intercalate_singleton] at h
    have hclause := hsemi clause List.mem_cons_self
    obtain rfl : n = p.clause := Nat.succ_inj.1 hn
    rcases List.eq_nil_or_concat' clause with rfl | ⟨init, l, rfl⟩
    · cases h
    · rw [List.mem_append, List.mem_singleton, not_or] at hclause
      rw [parseClauses_of_stop_after h hclause.1, if_neg (Ne.symm hclause.2),
        Clause.judgedBeforeStop, if_neg (by simp)]
      rfl
  | clause :: next :: clauses, p, patterns, _, hsemi, h, hn => by
    obtain ⟨hclause, hrest⟩ := List.forall_mem_cons.1 hsemi
    rw [List.intercalate_cons_cons, List.append_assoc, List.singleton_append] at h
    by_cases hmore : next :: clauses = [[]]
    · -- nothing but the semicolon of the last judged clause was taken
      cases hmore
      obtain rfl : n = p.clause + 1 := Nat.succ_inj.1 hn
      rw [parseClauses_of_stop_after h hclause, if_pos rfl]
      rfl
    · have hne : next :: clauses ≠ [] := List.cons_ne_nil _ _
      obtain ⟨q, hq, hqn, heq⟩ := parseClauses_of_semicolon h hclause
        (.inl (intercalate_ne_nil hne hmore hrest)) patterns
      rw [heq, judgedBeforeStop_cons hne hmore, Clause.patternsFrom]
      cases Clause.pattern? clause with
      | error fault => rfl
      | ok found =>
        have hlen : n + 1 = q.clause + (next :: clauses).length := by
          rw [hn, hqn]
          exact (Nat.succ_add_eq_add_succ _ _).symm
        show q.parseClauses _ = _
        rw [parseClauses_of_stop hne hrest hq hlen, hqn]
        cases Clause.patternsFrom (p.clause + 1) (Clause.judgedBeforeStop (next :: clauses)) <;> rfl

/-- A parser starts with everything that is scanned ahead of it. -/
theorem start_of_scan {cs : List Char} (h : Lexeme.scan cs = (ls, stop))
    (hgo : ls ≠ [] ∨ stop = none) :
    ∃ p, start cs = .ok p ∧ p.Ahead ls stop ∧ p.clause = 1 := by
  obtain ⟨current, rest, hnext, hp⟩ := ahead_of_scan h hgo 1
  exact ⟨_, by rw [start, hnext], hp, rfl⟩

end Parser

/-! ## Programs -/

/-- The clauses between semicolons hold none. -/
theorem semicolon_notMem_of_mem_splitOn {ls clause : List Lexeme}
    (h : clause ∈ ls.splitOn .semicolon) : .semicolon ∉ clause := by
  intro hmem
  rw [List.splitOn_eq_splitOnP] at h
  simpa using (mem_of_mem_splitOnP h hmem).2

/-- A program that is scanned to its end. -/
theorem parseProgram_of_scan {program : String} {lexemes : List Lexeme}
    (h : Lexeme.scan program.toList = (lexemes, none)) :
    parseProgram program = Clause.patternsFrom 1 (lexemes.splitOn .semicolon) := by
  obtain ⟨p, hstart, hp, hn⟩ := Parser.start_of_scan h (.inr rfl)
  have hjoin : [Lexeme.semicolon].intercalate (lexemes.splitOn .semicolon) = lexemes :=
    List.intercalate_splitOn _
  rw [← hjoin] at hp
  rw [parseProgram, hstart]
  show p.parseClauses [] = _
  rw [Parser.parseClauses_of_scan (List.splitOn_ne_nil _ _)
    (fun _ => semicolon_notMem_of_mem_splitOn) hp, hn]
  cases Clause.patternsFrom 1 (lexemes.splitOn .semicolon) <;> rfl

/-- A program that is scanned to a character that fits nowhere. -/
theorem parseProgram_of_stop {program : String} {lexemes : List Lexeme} {c : Char}
    (h : Lexeme.scan program.toList = (lexemes, some c)) :
    parseProgram program = (do
      let _ ← Clause.patternsFrom 1 (Clause.judgedBeforeStop (lexemes.splitOn .semicolon))
      .error ⟨(lexemes.splitOn .semicolon).length, .unexpectedChar c⟩) := by
  by_cases hnil : lexemes = []
  · subst hnil
    rw [parseProgram, Parser.start, Parser.next_of_scan_stop h]
    rfl
  · obtain ⟨p, hstart, hp, hn⟩ := Parser.start_of_scan h (.inl hnil)
    have hjoin : [Lexeme.semicolon].intercalate (lexemes.splitOn .semicolon) = lexemes :=
      List.intercalate_splitOn _
    rw [← hjoin] at hp
    rw [parseProgram, hstart]
    show p.parseClauses [] = _
    rw [Parser.parseClauses_of_stop (List.splitOn_ne_nil _ _)
      (fun _ => semicolon_notMem_of_mem_splitOn) hp (by rw [hn, Nat.add_comm]), hn]

/-- Programs that are scanned alike are read alike. -/
theorem parseProgram_eq_of_scan {program program' : String}
    (h : Lexeme.scan program.toList = Lexeme.scan program'.toList) :
    parseProgram program = parseProgram program' := by
  rcases hscan : Lexeme.scan program'.toList with ⟨lexemes, _ | c⟩ <;> rw [hscan] at h
  · rw [parseProgram_of_scan h, parseProgram_of_scan hscan]
  · rw [parseProgram_of_stop h, parseProgram_of_stop hscan]

end GrammarInduction
