import GrammarInduction.Proofs.Induction.Renaming

/-!
# Tokens are compared and nothing else

Tokens that are replaced by others, different ones by different ones, are a renaming
(`Renaming.ofTokens`) that leaves names and ids alone. Loading commutes with it
(`Grammar.Image.addSentence`), so that engines on a corpus and on the corpus with its tokens
replaced mirror each other from the beginning: any number of iterations reports the same, and the
grammars differ by the values of their terminals (`Engine.trace_mapTerminals`).
-/

namespace GrammarInduction

/-! ## Replacing tokens -/

/-- `f` has a token for each token of the sentences, and different ones for different ones. -/
structure Corpus.Replaces (f : String → String) (ss : List (List String)) : Prop where
  injOn : Set.InjOn f {t | ∃ ws ∈ ss, t ∈ ws}
  isToken : ∀ ws ∈ ss, ∀ t ∈ ws, IsToken (f t)

/-- The sentences with their tokens replaced are those of some text. -/
theorem Corpus.Replaces.sentences_write {f : String → String} {text : String}
    (hf : Replaces f (sentences text)) :
    sentences (write ((sentences text).map (List.map f))) = (sentences text).map (List.map f) := by
  refine Corpus.sentences_write fun ws hws => ?_
  obtain ⟨vs, hvs, rfl⟩ := List.mem_map.1 hws
  refine ⟨?_, fun w hw => ?_⟩
  · simpa using (Corpus.mem_sentences.1 hvs).1
  · obtain ⟨t, ht, rfl⟩ := List.mem_map.1 hw
    exact hf.isToken vs hvs t ht

/-- The symbol with its value replaced if it is a terminal. -/
def Symbol.mapTerminal (f : String → String) (s : Symbol) : Symbol :=
  if s.terminal then { s with value := f s.value } else s

/-- The rules with the values of all terminals replaced. -/
def Grammar.mapTerminals (f : String → String) (g : Grammar) : Grammar :=
  { g with rules := g.rules.map fun r => { r with rhs := r.rhs.map (Symbol.mapTerminal f) } }

namespace Renaming

variable {f : String → String} {text text' start : String}
  (hf : Corpus.Replaces f (Corpus.sentences text))

/-- The tokens of the text are replaced; induced names and all ids stay. -/
def ofTokens : Renaming where
  name := id
  value v := if marked v then v else f v
  rule := id
  symbol := id
  values := {t | ∃ ws ∈ Corpus.sentences text, t ∈ ws} ∪ Set.range inducedName
  rules := Set.univ
  value_inj := by
    have hmark : ∀ v ∈ {t | ∃ ws ∈ Corpus.sentences text, t ∈ ws},
        marked v = false ∧ marked (f v) = false := fun v ⟨ws, hws, hv⟩ =>
      ⟨(Corpus.isToken_of_mem_sentences ws hws v hv).unmarked, (hf.isToken ws hws v hv).unmarked⟩
    intro v hv w hw hvw
    rcases hv with hv | ⟨n, rfl⟩ <;> rcases hw with hw | ⟨m, rfl⟩
    · simp only [(hmark v hv).1, (hmark w hw).1, Bool.false_eq_true, if_false] at hvw
      exact hf.injOn hv hw hvw
    · have h := congrArg marked hvw
      simp [hmark v hv] at h
    · have h := congrArg marked hvw
      simp [hmark w hw] at h
    · simpa using hvw
  rule_inj := Set.injOn_id _
  marked_value := by
    intro v hv
    rcases hv with ⟨ws, hws, hv⟩ | ⟨n, rfl⟩
    · have hold := (Corpus.isToken_of_mem_sentences ws hws v hv).unmarked
      simp [hold, (hf.isToken ws hws v hv).unmarked]
    · simp
  name_of_marked := fun v _ hm => by simp [hm]
  separator := by
    intro v hv
    rcases hv with ⟨ws, hws, hv⟩ | ⟨n, rfl⟩
    · have hold := Corpus.isToken_of_mem_sentences ws hws v hv
      simp [hold.unmarked, hold.separator, (hf.isToken ws hws v hv).separator]
    · simp [separator_notMem_inducedName]

/-- Where kinds are those of the values, only terminals get another value. -/
theorem map_under_ofTokens {xs : List Symbol} (h : Kinded xs) :
    xs.map (Symbol.under (ofTokens hf)) = xs.map (Symbol.mapTerminal f) := by
  apply List.map_congr_left
  intro s hs
  have ht := h s hs
  unfold Symbol.under Symbol.mapTerminal
  cases hm : marked s.value with
  | true =>
    rw [hm] at ht
    cases s
    cases ht
    simp [ofTokens, hm]
  | false => simp [ofTokens, hm, ht]

theorem eq_mapTerminals {g h : Grammar} (hg : g.Inv) (hi : Grammar.Image (ofTokens hf) g h) :
    h = g.mapTerminals f := by
  have hrules : h.rules = (g.mapTerminals f).rules := by
    rw [hi.rules]
    apply List.map_congr_left
    intro r hr
    rw [Rule.under, map_under_ofTokens hf (hg.kinds r hr)]
    rfl
  have hsupply : h.supply = g.supply := by
    have hname := inducedName_injective (hi.supply.name 0)
    have hrule := hi.supply.rule 0
    have hsymbol := hi.supply.symbol 0
    cases hgs : g.supply
    cases hhs : h.supply
    simp only [hgs, hhs, ofTokens, id_eq, Nat.add_zero] at hname hrule hsymbol
    rw [hname, hrule, hsymbol]
  have hstart := hi.start
  cases h
  simp only at hrules hsupply hstart
  rw [hrules, hsupply, hstart]
  rfl

end Renaming

/-! ## Loading -/

namespace Grammar

variable {ρ : Renaming} {g h : Grammar}

theorem Image.addSentence (hi : Image ρ g h) (hstart : ρ.name g.start = g.start)
    (ws : List String) : Image ρ (g.addSentence ws) (h.addSentence (ws.map ρ.value)) := by
  have hrhs := hi.supply.issue_under (ws.map fun t => (t, true))
  have hid := hi.supply.rule 0
  have hnext := hi.supply.advance ws.length 1 0
  refine ⟨hi.start, ?_, ?_⟩
  · rw [List.map_map] at hrhs
    simp only [Nat.add_zero] at hid
    simp only [Grammar.addSentence, addRule, Supply.takeRule, Supply.issue, List.map_map,
      Function.comp_def, hi.rules, hi.start, List.map_append, List.map_cons, List.map_nil,
      Rule.under, hstart, hid] at hrhs ⊢
    rw [hrhs]
  · simpa [Grammar.addSentence, addRule, Supply.takeRule, Supply.issue] using hnext

theorem Image.foldl_addSentence : ∀ {ss : List (List String)} {g h : Grammar},
    ρ.name g.start = g.start → Image ρ g h →
      Image ρ (ss.foldl Grammar.addSentence g)
        ((ss.map (List.map ρ.value)).foldl Grammar.addSentence h)
  | [], _, _, _, hi => hi
  | ws :: _, g, _, hs, hi => foldl_addSentence (g := g.addSentence ws) hs (hi.addSentence hs ws)

end Grammar

section
variable {f : String → String} {text text' start : String}
  (hf : Corpus.Replaces f (Corpus.sentences text))

theorem Supply.shifts_ofTokens (s : Supply) : s.Shifts (.ofTokens hf) s where
  name := fun _ => rfl
  value := fun _ => if_pos (marked_inducedName _)
  rule := fun _ => rfl
  symbol := fun _ => rfl

theorem Grammar.image_ofCorpus (start : String)
    (h : Corpus.sentences text' = (Corpus.sentences text).map (List.map f)) :
    Image (.ofTokens hf) (.ofCorpus text start) (.ofCorpus text' start) := by
  have hvalue : ∀ ws ∈ Corpus.sentences text, ws.map f = ws.map (Renaming.ofTokens hf).value := by
    intro ws hws
    apply List.map_congr_left
    intro t ht
    have hm := (Corpus.isToken_of_mem_sentences ws hws t ht).unmarked
    simp [Renaming.ofTokens, hm]
  rw [List.map_congr_left hvalue] at h
  have himage := @Image.foldl_addSentence (.ofTokens hf) (Corpus.sentences text) { start }
    { start } rfl ⟨rfl, rfl, Supply.shifts_ofTokens hf {}⟩
  rw [← h] at himage
  exact himage

theorem Grammar.covered_ofCorpus (hs : marked start = false) :
    (ofCorpus text start).Covered (.ofTokens hf) := by
  have hload := loaded_ofCorpus text start
  refine (inv_ofCorpus text hs).covered rfl (fun r hr v hv _ => ?_) (fun r hr hl => ?_)
    (fun _ _ => trivial) (fun n _ => .inr ⟨n, rfl⟩) fun _ _ => trivial
  · exact .inl ⟨r.values, (hload.of_mem hr).2.1, hv⟩
  · exact absurd (hload.of_mem hr).1 hl

end

namespace Engine

/-- An engine sees of tokens whether they are equal: on a corpus with its tokens replaced it reports
and counts what it does on the corpus, and its grammar has other values on its terminals. -/
theorem trace_mapTerminals {text start : String} {f : String → String}
    (hs : marked start = false) (hf : Corpus.Replaces f (Corpus.sentences text)) :
    Corpus.sentences (Corpus.write ((Corpus.sentences text).map (List.map f))) =
        (Corpus.sentences text).map (List.map f) ∧
      ∀ text', Corpus.sentences text' = (Corpus.sentences text).map (List.map f) →
        ∀ e d : Engine, e.grammar = .ofCorpus text start → d.grammar = .ofCorpus text' start →
          d.patterns = e.patterns → d.stats = e.stats →
          ∀ k, ∃ results e' d', e.trace k = .ok (results, e') ∧ d.trace k = .ok (results, d') ∧
            d'.stats = e'.stats ∧ d'.grammar = e'.grammar.mapTerminals f := by
  refine ⟨hf.sentences_write, fun text' htext e d he hd hpat hstats k => ?_⟩
  have hmirror : Mirrors (.ofTokens hf) e d := by
    refine ⟨?_, ?_, hpat⟩
    · rw [he]
      exact Grammar.covered_ofCorpus hf hs
    · rw [he, hd]
      exact Grammar.image_ofCorpus hf start htext
  obtain ⟨results, e', d', he', hd', hmirror', hst⟩ := hmirror.trace k
  have hinv := inv_of_iterate (he ▸ Grammar.inv_ofCorpus text hs) (iterate_of_trace he')
  exact ⟨results, e', d', he', hd', hst hstats, Renaming.eq_mapTerminals hf hinv hmirror'.image⟩

/-- The tokens `a` and `b` change places. -/
def swapped (t : String) : String := if t = "a" then "b" else "a"

theorem trace_mapTerminals_swapped :
    ∃ results e' d',
      trace 2 { grammar := .ofCorpus "a b a b\na b" "S", patterns := [.pair] } =
        .ok (results, e') ∧
      trace 2 { grammar := .ofCorpus "b a b a\nb a" "S", patterns := [.pair] } =
        .ok (results, d') ∧
      d'.stats = e'.stats ∧ d'.grammar = e'.grammar.mapTerminals swapped := by
  have hsentences : Corpus.sentences "a b a b\na b" = [["a", "b", "a", "b"], ["a", "b"]] := by
    decide
  have htext : Corpus.sentences "b a b a\nb a" =
      (Corpus.sentences "a b a b\na b").map (List.map swapped) := by
    rw [hsentences]
    decide
  have htokens : ∀ ws ∈ Corpus.sentences "a b a b\na b", ∀ t ∈ ws, t = "a" ∨ t = "b" := by
    rw [hsentences]
    decide
  have hf : Corpus.Replaces swapped (Corpus.sentences "a b a b\na b") := by
    constructor
    · rintro v ⟨vs, hvs, hv⟩ w ⟨ws, hws, hw⟩ hvw
      rcases htokens vs hvs v hv with rfl | rfl <;> rcases htokens ws hws w hw with rfl | rfl
      · rfl
      · exact absurd hvw (by decide)
      · exact absurd hvw (by decide)
      · rfl
    · intro ws hws t ht
      have hmem : swapped t ∈ ["a", "b"] := by
        rcases htokens ws hws t ht with rfl | rfl <;> decide
      have hline : ["a", "b"] ∈ Corpus.sentences "a b a b\na b" := by
        rw [hsentences]
        decide
      exact Corpus.isToken_of_mem_sentences _ hline _ hmem
  have hs : marked "S" = false := by decide
  exact (trace_mapTerminals hs hf).2 _ htext
    { grammar := .ofCorpus "a b a b\na b" "S", patterns := [.pair] }
    { grammar := .ofCorpus "b a b a\nb a" "S", patterns := [.pair] } rfl rfl rfl rfl 2

end Engine

end GrammarInduction
