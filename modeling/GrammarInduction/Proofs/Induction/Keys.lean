import GrammarInduction.Proofs.Induction.Multiplicity
import GrammarInduction.Proofs.Induction.Tokens

/-!
# Keys tell apart what they stand for

The key of an occurrence is its values with spaces between them, a bar and its pattern source. If no
value holds a space or a bar (`Plain`), the first bar ends the values, and keys are equal if values
and source are (`Occurrence.key_eq_iff`), whatever the source is. A chart of such occurrences has
one candidate for each key (`Chart.exists_candidate_of_key`, `Chart.key_eq_iff_covers`).

The values of a grammar that is induced from a corpus are tokens and induced names
(`Engine.values_of_iterate`), and these are plain. So the occurrences in it that have one key are
those of one candidate (`Engine.keys_of_iterate`).
-/

namespace GrammarInduction

/-! ## Plain values -/

/-- The value has none of the characters that end a value in a key. -/
structure Plain (v : String) : Prop where
  space : ' ' ∉ v.toList
  bar : '|' ∉ v.toList

theorem Corpus.IsToken.plain {t : String} (h : IsToken t) : Plain t where
  space := fun hc => absurd (h.word _ hc) (by decide)
  bar := fun hc => absurd (h.keeps _ hc) (by decide)

theorem plain_inducedName (n : Nat) : Plain (inducedName n) where
  space := notMem_inducedName (by decide) (by decide) (by decide) n
  bar := notMem_inducedName (by decide) (by decide) (by decide) n

/-! ## Keys -/

namespace Occurrence

variable {o o' : Occurrence}

theorem toList_key (o : Occurrence) : o.key.toList =
    ((" ".intercalate o.values).toList ++ [' ']) ++ '|' :: ' ' :: o.pattern.toList := by
  simp [key]

theorem bar_notMem (h : ∀ v ∈ o.values, Plain v) :
    '|' ∉ (" ".intercalate o.values).toList ++ [' '] := by
  intro hc
  rcases List.mem_append.1 hc with hc | hc
  · rw [String.toList_intercalate] at hc
    rcases mem_intercalate hc with hc | ⟨piece, hp, hc⟩
    · exact absurd hc (by decide)
    · obtain ⟨v, hv, rfl⟩ := List.mem_map.1 hp
      exact (h v hv).bar hc
  · exact absurd hc (by decide)

/-- Keys of plain values are equal if the values and the pattern sources are. -/
theorem key_eq_iff (hne : o.values ≠ []) (hne' : o'.values ≠ []) (h : ∀ v ∈ o.values, Plain v)
    (h' : ∀ v ∈ o'.values, Plain v) : o.key = o'.key ↔ o.label = o'.label := by
  have hsep : (" " : String).toList = [' '] := rfl
  have hvalues := intercalate_inj hsep hne hne' (fun v hv => (h v hv).space)
    fun v hv => (h' v hv).space
  rw [← String.toList_inj, toList_key, toList_key,
    append_cons_inj_of_notMem_left (bar_notMem h) (bar_notMem h'), List.append_left_inj,
    List.cons_inj_right, String.toList_inj, String.toList_inj, hvalues, label, label,
    Prod.mk.injEq]

end Occurrence

namespace Chart

variable {patterns : List Pattern} {os : List Occurrence} {o o' : Occurrence}
  (hknown : known patterns os = os)
  (hkey : ∀ o ∈ os, ∀ o' ∈ os, o.key = o'.key ↔ o.label = o'.label)
include hknown

/-- An occurrence of a known pattern is covered by one candidate. -/
theorem exists_candidate (ho : o ∈ os) : ∃ c ∈ (ofOccurrences patterns os).candidates,
    c.label = o.label ∧
    (∀ d ∈ (ofOccurrences patterns os).candidates, d.covers o = true ↔ d = c) ∧
    c.spans = (os.filter (·.label == o.label)).map Occurrence.span := by
  have hgroups := groups_ofOccurrences patterns os
  rw [hknown] at hgroups
  have hmem : o.label ∈ (ofOccurrences patterns os).candidates.map Candidate.label := by
    rw [hgroups.labels, List.mem_eraseDups]
    exact List.mem_map_of_mem ho
  obtain ⟨c, hc, hlabel⟩ := List.mem_map.1 hmem
  obtain ⟨n, hn⟩ := hgroups.exists_isGroup hc
  refine ⟨c, hc, hlabel, fun d hd => ?_, hlabel ▸ hn.spans⟩
  rw [Candidate.covers_eq, beq_iff_eq, ← hlabel, eq_comm]
  exact ⟨List.inj_on_of_nodup_map hgroups.nodup hd hc, congrArg Candidate.label⟩

include hkey

/-- Where keys tell labels apart, a candidate has the spans of all occurrences of one key. -/
theorem exists_candidate_of_key (ho : o ∈ os) : ∃ c ∈ (ofOccurrences patterns os).candidates,
    (∀ d ∈ (ofOccurrences patterns os).candidates, d.covers o = true ↔ d = c) ∧
    c.spans = (os.filter (·.key == o.key)).map Occurrence.span := by
  obtain ⟨c, hc, -, hone, hspans⟩ := exists_candidate hknown ho
  refine ⟨c, hc, hone, hspans.trans (congrArg _ (List.filter_congr fun o' ho' => ?_))⟩
  rw [Bool.eq_iff_iff, beq_iff_eq, beq_iff_eq, hkey o' ho' o ho]

theorem key_eq_iff_covers (ho : o ∈ os) (ho' : o' ∈ os) : o.key = o'.key ↔
    ∃ c ∈ (ofOccurrences patterns os).candidates, c.covers o = true ∧ c.covers o' = true := by
  rw [hkey o ho o' ho']
  constructor
  · intro h
    obtain ⟨c, hc, hlabel, -, -⟩ := exists_candidate hknown ho
    refine ⟨c, hc, ?_, ?_⟩
    · rw [Candidate.covers_eq, hlabel, beq_self_eq_true]
    · rw [Candidate.covers_eq, hlabel, h, beq_self_eq_true]
  · rintro ⟨c, -, hco, hco'⟩
    rw [Candidate.covers_eq, beq_iff_eq] at hco hco'
    rw [hco, hco']

end Chart

/-! ## Induction -/

namespace Engine

variable {e : Engine} {text start : String}

/-- Values are tokens of the corpus or induced names, wherever iterations lead. -/
theorem values_of_iterate (he : e.grammar = .ofCorpus text start) (hs : marked start = false)
    (k : Nat) : ∃ e', e.iterate k = .ok e' ∧ ∀ r ∈ e'.grammar.rules, ∀ v ∈ r.values,
      (∃ ws ∈ Corpus.sentences text, v ∈ ws) ∨ ∃ n, inducedName n = v := by
  -- an engine mirrors itself, with its values among those that tokens are replaced in
  have hid : Corpus.Replaces id (Corpus.sentences text) :=
    ⟨Set.injOn_id _, Corpus.isToken_of_mem_sentences⟩
  have hmirror : Mirrors (.ofTokens hid) e e := by
    refine ⟨?_, ?_, rfl⟩ <;> rw [he]
    · exact Grammar.covered_ofCorpus hid hs
    · exact Grammar.image_ofCorpus hid start (by simp)
  obtain ⟨results, e', d', he', -, h', -⟩ := hmirror.trace k
  exact ⟨e', iterate_of_trace he', h'.covered.covers.values⟩

/-- Where values are plain, keys tell the labels of occurrences apart. -/
theorem key_eq_iff_of_plain (h : ∀ r ∈ e.grammar.rules, ∀ v ∈ r.values, Plain v) :
    ∀ o ∈ e.collect, ∀ o' ∈ e.collect, o.key = o'.key ↔ o.label = o'.label := by
  have hplain : ∀ o ∈ e.collect, o.values ≠ [] ∧ ∀ v ∈ o.values, Plain v := by
    intro o ho
    obtain ⟨r, hr, -, -, hinf, -, hne⟩ := of_mem_collect ho
    exact ⟨hne, fun v hv => h r hr v (hinf.subset hv)⟩
  exact fun o ho o' ho' =>
    Occurrence.key_eq_iff (hplain o ho).1 (hplain o' ho').1 (hplain o ho).2 (hplain o' ho').2

/-- Lists of values without the separator have one joined key if they are equal. Wherever iterations
lead from a corpus, and whatever patterns are then looked for, an occurrence is covered by one
candidate of the chart, which has the spans of all occurrences of its key; two occurrences have one
key if one candidate covers both. -/
theorem keys_of_iterate (hs : marked start = false) :
    (∀ vs ws : List String, vs ≠ [] → ws ≠ [] → (∀ v ∈ vs, '\x1f' ∉ v.toList) →
      (∀ w ∈ ws, '\x1f' ∉ w.toList) → (joinedKey vs = joinedKey ws ↔ vs = ws)) ∧
    ∀ (text : String) (e : Engine), e.grammar = .ofCorpus text start → ∀ k,
      ∃ e', e.iterate k = .ok e' ∧ ∀ patterns,
        let os := collect { e' with patterns }
        let chart := Chart.ofOccurrences patterns os
        (∀ o ∈ os, ∃ c ∈ chart.candidates, (∀ d ∈ chart.candidates, d.covers o = true ↔ d = c) ∧
          c.spans = (os.filter (·.key == o.key)).map Occurrence.span) ∧
        ∀ o ∈ os, ∀ o' ∈ os, o.key = o'.key ↔
          ∃ c ∈ chart.candidates, c.covers o = true ∧ c.covers o' = true := by
  refine ⟨fun vs ws => joinedKey_inj, fun text e he k => ?_⟩
  obtain ⟨e', hk, hvalues⟩ := values_of_iterate he hs k
  refine ⟨e', hk, fun patterns => ?_⟩
  intro os chart
  have hplain : ∀ r ∈ e'.grammar.rules, ∀ v ∈ r.values, Plain v := by
    intro r hr v hv
    rcases hvalues r hr v hv with ⟨ws, hws, hv⟩ | ⟨n, rfl⟩
    · exact (Corpus.isToken_of_mem_sentences ws hws v hv).plain
    · exact plain_inducedName n
  have hkey := key_eq_iff_of_plain (e := { e' with patterns }) hplain
  have hknown : known patterns os = os := known_collect { e' with patterns }
  exact ⟨fun o => Chart.exists_candidate_of_key hknown hkey,
    fun o ho o' => Chart.key_eq_iff_covers hknown hkey ho⟩

theorem keys_of_iterate_pair :
    (joinedKey ["a", ""] = joinedKey ["a"] ↔ ["a", ""] = ["a"]) ∧
      ∃ e', iterate 2 { grammar := .ofCorpus "a b a b\na b" "S", patterns := [.pair] } = .ok e' ∧
        let os := collect { e' with patterns := [.pair, .pair] }
        ∀ o ∈ os, ∀ o' ∈ os, o.key = o'.key ↔
          ∃ c ∈ (Chart.ofOccurrences [.pair, .pair] os).candidates,
            c.covers o = true ∧ c.covers o' = true := by
  have h := @keys_of_iterate "S" (by decide)
  obtain ⟨e', hk, hkeys⟩ :=
    h.2 "a b a b\na b" { grammar := .ofCorpus "a b a b\na b" "S", patterns := [.pair] } rfl 2
  exact ⟨h.1 ["a", ""] ["a"] (by simp) (by simp) (by decide) (by decide), e', hk,
    (hkeys [.pair, .pair]).2⟩

end Engine

end GrammarInduction
