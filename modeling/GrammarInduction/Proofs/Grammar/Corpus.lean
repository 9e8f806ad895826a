import GrammarInduction.Grammar.Corpus
import GrammarInduction.Proofs.Grammar.WellFormed
import GrammarInduction.Proofs.Lists
import Mathlib.Data.Set.Basic

/-!
# The grammar of a corpus

The tokens of a corpus are words of the characters that cleaning leaves in (`Corpus.IsToken`), and
sentences of such words are those of some text (`Corpus.sentences_write`).

`Loaded start ss g`: the rules of `g` are those of the sentences `ss`, in order, all of the start
name and without non-terminals; ids count up. The grammar of a corpus is such a grammar
(`loaded_ofCorpus`). Its language is the set of its sentences (`language_ofCorpus`), and it meets
the invariant of induction, as tokens hold neither `$` nor the separator (`inv_ofCorpus`).
-/

namespace GrammarInduction

/-! ## Tokens -/

namespace Corpus

/-- What a token may be: characters that cleaning leaves in and no white space, at least one. -/
structure IsToken (t : String) : Prop where
  ne : t ≠ ""
  keeps : ∀ c ∈ t.toList, keeps c = true
  word : ∀ c ∈ t.toList, Text.isBlank c = false

theorem isToken_of_mem_tokens {line : List Char} {t : String} (h : t ∈ tokens line) :
    IsToken t := by
  obtain ⟨piece, hp, rfl⟩ := List.mem_map.1 h
  obtain ⟨hp, hne⟩ := List.mem_filter.1 hp
  refine ⟨by simpa using hne, fun c hc => ?_, fun c hc => ?_⟩
  · rw [String.toList_ofList] at hc
    exact (List.mem_filter.1 (mem_of_mem_splitOnP hp hc).1).2
  · rw [String.toList_ofList] at hc
    exact (mem_of_mem_splitOnP hp hc).2

/-- No token has white space in it, or a character that induced names and keys of rules have. -/
theorem IsToken.chars {t : String} (h : IsToken t) :
    ∀ c ∈ t.toList, Text.isBlank c = false ∧ c ≠ '$' ∧ c ≠ '\x1f' := by
  intro c hc
  refine ⟨h.word c hc, ?_, ?_⟩ <;> rintro rfl <;> exact absurd (h.keeps _ hc) (by decide)

theorem IsToken.unmarked {t : String} (h : IsToken t) : marked t = false := by
  cases hl : t.toList with
  | nil => simp [marked, hl]
  | cons c cs =>
    have hc := (h.chars c (hl ▸ List.mem_cons_self)).2.1
    simpa [marked, hl] using hc

theorem IsToken.separator {t : String} (h : IsToken t) : '\x1f' ∉ t.toList :=
  fun hc => (h.chars _ hc).2.2 rfl

theorem mem_sentences {text : String} {ws : List String} :
    ws ∈ sentences text ↔ ws ≠ [] ∧ ∃ line ∈ text.toList.splitOn '\n', tokens line = ws := by
  rw [sentences, List.mem_filter, List.mem_map, and_comm]
  exact and_congr_left' (by simp)

theorem isToken_of_mem_sentences {text : String} :
    ∀ ws ∈ sentences text, ∀ t ∈ ws, IsToken t := by
  intro ws hws t ht
  obtain ⟨-, line, -, rfl⟩ := mem_sentences.1 hws
  exact isToken_of_mem_tokens ht

example : sentences "a, b!\n\n c" = [["a", "b!"], ["c"]] := by decide

/-! ## Writing -/

/-- A line of tokens with spaces between them. -/
def line (ws : List String) : List Char := [' '].intercalate (ws.map String.toList)

/-- One line for each of the sentences. -/
def write (ss : List (List String)) : String := String.ofList (['\n'].intercalate (ss.map line))

theorem keeps_of_mem_line {ws : List String} (h : ∀ w ∈ ws, IsToken w) {c : Char}
    (hc : c ∈ line ws) : c = ' ' ∨ Corpus.keeps c = true ∧ Text.isBlank c = false := by
  rcases mem_intercalate hc with hc | ⟨piece, hp, hc⟩
  · exact .inl hc
  · obtain ⟨w, hw, rfl⟩ := List.mem_map.1 hp
    exact .inr ⟨(h w hw).keeps c hc, (h w hw).word c hc⟩

theorem tokens_line {ws : List String} (h : ∀ w ∈ ws, IsToken w) : tokens (line ws) = ws := by
  cases ws with
  | nil => decide
  | cons w ws =>
    have hclean : clean (line (w :: ws)) = line (w :: ws) := by
      refine List.filter_eq_self.2 fun c hc => ?_
      rcases keeps_of_mem_line h hc with rfl | hc
      · decide
      · exact hc.1
    have hsplit : (line (w :: ws)).splitOnP Text.isBlank = (w :: ws).map String.toList := by
      refine splitOnP_intercalate (by decide) (by simp) fun piece hp => ?_
      obtain ⟨v, hv, rfl⟩ := List.mem_map.1 hp
      exact (h v hv).word
    have hne : ((w :: ws).map String.toList).filter (· ≠ []) = (w :: ws).map String.toList := by
      refine List.filter_eq_self.2 fun piece hp => ?_
      obtain ⟨v, hv, rfl⟩ := List.mem_map.1 hp
      simpa using (h v hv).ne
    rw [tokens, hclean, hsplit, hne, List.map_map]
    exact (List.map_congr_left fun v _ => String.ofList_toList).trans (List.map_id _)

/-- What is written is read back. -/
theorem sentences_write {ss : List (List String)} (h : ∀ ws ∈ ss, ws ≠ [] ∧ ∀ w ∈ ws, IsToken w) :
    sentences (write ss) = ss := by
  cases ss with
  | nil => decide
  | cons ws ss =>
    have hsplit : (write (ws :: ss)).toList.splitOn '\n' = (ws :: ss).map line := by
      rw [write, String.toList_ofList]
      refine List.splitOn_intercalate _ (fun l hl hc => ?_) (by simp)
      obtain ⟨vs, hvs, rfl⟩ := List.mem_map.1 hl
      rcases keeps_of_mem_line (h vs hvs).2 hc with hc | hc
      · exact absurd hc (by decide)
      · exact absurd hc.2 (by decide)
    have htokens : ((ws :: ss).map line).map tokens = ws :: ss := by
      rw [List.map_map]
      refine (List.map_congr_left fun vs hvs => ?_).trans (List.map_id _)
      exact tokens_line (h vs hvs).2
    rw [sentences, hsplit, htokens, List.filter_eq_self]
    intro vs hvs
    simpa using (h vs hvs).1

end Corpus

/-! ## Loading -/

namespace Grammar

/-- The rules of `g` are made of the sentences `ss` (module doc). -/
structure Loaded (name : String) (ss : List (List String)) (g : Grammar) : Prop where
  start : g.start = name
  rules : List.Forall₂ (fun r ws => r.lhs = name ∧ r.shapes = ws.map fun w => (w, true)) g.rules ss
  ids : g.rules.map Rule.id = List.range g.supply.nextRule

namespace Loaded

variable {name : String}

theorem addSentence {ss : List (List String)} {g : Grammar} (h : Loaded name ss g)
    (ws : List String) : Loaded name (ss ++ [ws]) (g.addSentence ws) := by
  refine ⟨h.start, ?_, ?_⟩
  · exact List.rel_append h.rules (.cons ⟨h.start, Supply.issue_shapes g.supply _⟩ .nil)
  · show (g.rules ++ [_]).map Rule.id = List.range (g.supply.nextRule + 1)
    rw [List.map_append, h.ids, List.range_succ]
    rfl

theorem foldl : ∀ {ts ss : List (List String)} {g : Grammar},
    Loaded name ss g → Loaded name (ss ++ ts) (ts.foldl Grammar.addSentence g)
  | [], ss, g, h => by rwa [List.append_nil]
  | ws :: ts, ss, g, h => by
    have ih := @foldl ts _ _ (h.addSentence ws)
    rwa [List.append_assoc] at ih

variable {ss : List (List String)} {g : Grammar}

theorem values_of_sentence {r : Rule} {ws : List String}
    (h : r.shapes = ws.map fun w => (w, true)) : r.values = ws := by
  rw [values_of_shapes h, List.map_map]
  exact List.map_id ws

/-- The rules spell the sentences, in order. -/
theorem values (h : Loaded name ss g) : g.rules.map Rule.values = ss := by
  rw [← List.forall₂_eq_eq_eq, List.forall₂_map_left_iff]
  exact h.rules.imp fun _ _ hr => values_of_sentence hr.2

/-- A rule spells one of the sentences. -/
theorem of_mem (h : Loaded name ss g) {r : Rule} (hr : r ∈ g.rules) :
    r.lhs = g.start ∧ r.values ∈ ss ∧ ∀ s ∈ r.rhs, s.terminal = true := by
  obtain ⟨ws, hws, hl, hs⟩ := exists_right_of_forall₂ h.rules hr
  refine ⟨hl.trans h.start.symm, ?_, fun s hsr => ?_⟩
  · rw [values_of_sentence hs]
    exact hws
  · have hm := List.mem_map_of_mem (f := Symbol.shape) hsr
    rw [show r.rhs.map Symbol.shape = _ from hs, List.mem_map] at hm
    obtain ⟨w, -, hw⟩ := hm
    exact (congrArg Prod.snd hw).symm

theorem exists_rule (h : Loaded name ss g) {ws : List String} (hws : ws ∈ ss) :
    ∃ r ∈ g.rules, r.values = ws := by
  obtain ⟨r, hr, -, hs⟩ := exists_left_of_forall₂ h.rules hws
  exact ⟨r, hr, values_of_sentence hs⟩

theorem spells_iff (h : Loaded name ss g) {r : Rule} (hr : r ∈ g.rules) {ws : List String} :
    Spells g.rules r.rhs ws ↔ ws = r.values := spells_terminals (h.of_mem hr).2.2

theorem language_eq (h : Loaded name ss g) : g.language = {ws | ws ∈ ss} := by
  ext ws
  constructor
  · rintro ⟨r, hr, -, hw⟩
    rw [(h.spells_iff hr).1 hw]
    exact (h.of_mem hr).2.1
  · intro hws
    obtain ⟨r, hr, hv⟩ := h.exists_rule hws
    exact ⟨r, hr, (h.of_mem hr).1, (h.spells_iff hr).2 hv.symm⟩

/-- Sentences of tokens make a grammar that meets the invariant. -/
theorem inv (h : Loaded name ss g) (hn : marked name = false)
    (hss : ∀ ws ∈ ss, ws ≠ [] ∧ ∀ w ∈ ws, marked w = false ∧ '\x1f' ∉ w.toList) : g.Inv where
  start := by rw [h.start, hn]
  ids := by rw [h.ids]; exact List.nodup_range
  ids_lt := by
    intro r hr
    have hm := List.mem_map_of_mem (f := Rule.id) hr
    rwa [h.ids, List.mem_range] at hm
  names := fun r hr hs => absurd (h.of_mem hr).1 hs
  one := fun r hr q hq _ hs => absurd (h.of_mem hr).1 hs
  used := fun r hr hs => absurd (h.of_mem hr).1 hs
  rhs_ne := by
    intro r hr he
    refine (hss _ (h.of_mem hr).2.1).1 ?_
    rw [Rule.values, he, List.map_nil]
  kinds := by
    intro r hr s hs
    have hw := (hss _ (h.of_mem hr).2.1).2 s.value (List.mem_map_of_mem hs)
    rw [(h.of_mem hr).2.2 s hs, hw.1]
    rfl
  values := fun r hr v hv => ((hss _ (h.of_mem hr).2.1).2 v hv).2
  defined := by
    intro r hr s hs ht
    rw [(h.of_mem hr).2.2 s hs] at ht
    cases ht
  descends := by
    refine ⟨fun A => ⟨_, fun B hB => ?_⟩⟩
    obtain ⟨r, hr, -, s, hs, ht, -⟩ := hB
    rw [(h.of_mem hr).2.2 s hs] at ht
    cases ht

end Loaded

theorem loaded_ofCorpus (text start : String) :
    Loaded start (Corpus.sentences text) (ofCorpus text start) :=
  @Loaded.foldl start (Corpus.sentences text) [] { start } ⟨rfl, .nil, rfl⟩

theorem inv_ofCorpus (text : String) {start : String} (h : marked start = false) :
    (ofCorpus text start).Inv := by
  refine (loaded_ofCorpus text start).inv h fun ws hws => ?_
  obtain ⟨hne, line, -, rfl⟩ := Corpus.mem_sentences.1 hws
  refine ⟨hne, fun w hw => ?_⟩
  have htoken := Corpus.isToken_of_mem_tokens hw
  exact ⟨htoken.unmarked, htoken.separator⟩

end Grammar

end GrammarInduction
