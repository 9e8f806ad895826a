import GrammarInduction.Proofs.Grammar.Corpus

/-!
# Corpora line by line

Everything here follows from what white space does to a line and a line feed to a text: both part
what stands on their two sides.

* `Corpus.tokens_eq_pieces`: as cleaning leaves white space in, a line may be cut first and its
  pieces cleaned then. `Corpus.tokens_append_blank`: white space parts the tokens.
* `Corpus.lines`: the lines of a text, which end in a line feed or in a carriage return with a line
  feed. Neither the carriage return nor an empty last line has tokens (`Corpus.sentences_eq_lines`),
  so loading goes through the lines and passes over those without tokens (`Grammar.loadLine`,
  `Grammar.foldl_loadLine`).
* `Grammar.loadCorpus_append_newline`: two texts on lines of their own are loaded one after the
  other.
* `Grammar.ofCorpus_write`: the rules of a corpus, written one a line, are a corpus of the same
  grammar.
-/

namespace GrammarInduction

namespace Corpus

/-! ## The tokens of a line -/

theorem keeps_of_isBlank {c : Char} (h : Text.isBlank c = true) : keeps c = true := by
  simp [keeps, h]

theorem tokens_eq_pieces (line : List Char) :
    tokens line =
      (((line.splitOnP Text.isBlank).map clean).filter (· ≠ [])).map String.ofList := by
  rw [tokens, clean, splitOnP_filter fun _ => keeps_of_isBlank]
  rfl

theorem tokens_append_blank {c : Char} (hc : Text.isBlank c = true) (x y : List Char) :
    tokens (x ++ c :: y) = tokens x ++ tokens y := by
  rw [tokens_eq_pieces, List.splitOnP_append_cons _ _ hc, List.map_append, List.filter_append,
    List.map_append, ← tokens_eq_pieces, ← tokens_eq_pieces]

/-! ## The lines of a text -/

/-- A line without the carriage return of its line end. -/
def dropReturn (line : List Char) : List Char :=
  if line.getLast? = some '\r' then line.dropLast else line

/-- What the line feeds end, and what is left behind the last one if there is anything. -/
def lines (text : List Char) : List (List Char) :=
  let pieces := text.splitOn '\n'
  pieces.dropLast.map dropReturn ++ [pieces.getLastD []].filter (· ≠ [])

example : lines "a\r\n\nb\r".toList = ["a".toList, [], "b\r".toList] := by decide

theorem tokens_dropReturn (line : List Char) : tokens (dropReturn line) = tokens line := by
  unfold dropReturn
  split
  · rename_i h
    obtain ⟨x, rfl⟩ := List.getLast?_eq_some_iff.1 h
    rw [List.dropLast_concat, tokens_append_blank (by decide), show tokens [] = [] by decide,
      List.append_nil]
  · rfl

theorem sentences_eq_lines (text : String) :
    sentences text = ((lines text.toList).map tokens).filter (· ≠ []) := by
  have hlast : ∀ last : List Char, (([last].filter (· ≠ [])).map tokens).filter (· ≠ []) =
      ([last].map tokens).filter (· ≠ [])
    | [] => by decide
    | _ :: _ => rfl
  rw [sentences, lines]
  cases hs : text.toList.splitOn '\n' using List.reverseRecOn with
  | nil => exact absurd hs (List.splitOn_ne_nil _ _)
  | append_singleton pieces last =>
    simp only [List.dropLast_concat, List.getLastD_concat, List.map_append, List.filter_append,
      List.map_map, Function.comp_def, tokens_dropReturn, hlast]

theorem sentences_append_newline (a b : String) :
    sentences (a ++ "\n" ++ b) = sentences a ++ sentences b := by
  have hsplit : (a ++ "\n" ++ b).toList.splitOn '\n' =
      a.toList.splitOn '\n' ++ b.toList.splitOn '\n' := by
    rw [← List.splitOn_append_cons_self]
    simp
  rw [sentences, hsplit, List.map_append, List.filter_append]
  rfl

/-- The sentences of a text, written and read, are its sentences. -/
theorem sentences_write_sentences (text : String) :
    sentences (write (sentences text)) = sentences text :=
  sentences_write fun ws hws => ⟨(mem_sentences.1 hws).1, isToken_of_mem_sentences ws hws⟩

end Corpus

namespace Grammar

/-! ## Loading -/

/-- One turn of the loop over the lines: a line without tokens leaves all as it is. -/
def loadLine (s : Nat × Grammar) (line : List Char) : Nat × Grammar :=
  if Corpus.tokens line = [] then s else (s.1 + 1, s.2.addSentence (Corpus.tokens line))

theorem foldl_loadLine (ls : List (List Char)) (n : Nat) (g : Grammar) :
    ls.foldl loadLine (n, g) =
      (n + ((ls.map Corpus.tokens).filter (· ≠ [])).length,
        ((ls.map Corpus.tokens).filter (· ≠ [])).foldl addSentence g) := by
  induction ls generalizing n g with
  | nil => rfl
  | cons line ls ih =>
    rw [List.foldl_cons, List.map_cons, loadLine]
    split
    · rename_i h
      rw [ih, List.filter_cons_of_neg (by simpa using h)]
    · rename_i h
      rw [ih, List.filter_cons_of_pos (by simpa using h), List.length_cons, List.foldl_cons]
      congr 1
      omega

/-- Loading goes from line to line, so that two texts with a line feed between them are loaded as
they are one after the other, with the same ids. -/
theorem loadCorpus_append_newline (g : Grammar) :
    (∀ text, g.loadCorpus text = (Corpus.lines text.toList).foldl loadLine (0, g)) ∧
      ∀ a b, g.loadCorpus (a ++ "\n" ++ b) =
        ((g.loadCorpus a).1 + ((g.loadCorpus a).2.loadCorpus b).1,
          ((g.loadCorpus a).2.loadCorpus b).2) := by
  constructor
  · intro text
    rw [foldl_loadLine, ← Corpus.sentences_eq_lines, Nat.zero_add]
    rfl
  · intro a b
    simp only [loadCorpus, Corpus.sentences_append_newline, List.length_append, List.foldl_append]

theorem ofCorpus_of_sentences {a b : String} (h : Corpus.sentences a = Corpus.sentences b)
    (start : String) : ofCorpus a start = ofCorpus b start := by
  simp only [ofCorpus, loadCorpus, h]

/-- The values of the rules of a corpus, written one rule a line, with a last line feed or without,
are a corpus of the same grammar. The tokens of a line are the pieces between its white space, each
cleaned, and no token has a character in it that something else is told by. -/
theorem ofCorpus_write (start : String) :
    (∀ text, let g := ofCorpus text start
      let written := Corpus.write (g.rules.map Rule.values)
      ofCorpus written start = g ∧ ofCorpus (written ++ "\n") start = g) ∧
    ∀ line, Corpus.tokens line =
        (((line.splitOnP Text.isBlank).map Corpus.clean).filter (· ≠ [])).map String.ofList ∧
      ∀ t ∈ Corpus.tokens line,
        t ≠ "" ∧ ∀ c ∈ t.toList, Text.isBlank c = false ∧ c ≠ '$' ∧ c ≠ '\x1f' := by
  constructor
  · intro text
    have hwrite := Corpus.sentences_write_sentences text
    have hend : Corpus.sentences (Corpus.write (Corpus.sentences text) ++ "\n") =
        Corpus.sentences text := by
      have happend := Corpus.sentences_append_newline (Corpus.write (Corpus.sentences text)) ""
      rwa [String.append_empty, hwrite, show Corpus.sentences "" = [] by decide,
        List.append_nil] at happend
    dsimp only
    rw [(loaded_ofCorpus text start).values]
    exact ⟨ofCorpus_of_sentences hwrite start, ofCorpus_of_sentences hend start⟩
  · intro line
    refine ⟨Corpus.tokens_eq_pieces line, fun t ht => ?_⟩
    have htoken := Corpus.isToken_of_mem_tokens ht
    exact ⟨htoken.ne, htoken.chars⟩

end Grammar

end GrammarInduction
