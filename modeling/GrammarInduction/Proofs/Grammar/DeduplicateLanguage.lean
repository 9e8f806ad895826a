import GrammarInduction.Proofs.Grammar.Language
import GrammarInduction.Proofs.Grammar.Representatives

/-!
# Deduplication keeps the language

Where names that may be merged are interchangeable, the rules that are left and the rules there were
simulate each other, symbol by symbol (`Corresponds`): a rule of a name has its like among those of
every other name with the same representative (`Grammar.rest_simulates`), and among those that are
left of every name that is still referred to (`Grammar.simulates_rest`). Deduplication thus keeps
the language (`Grammar.language_deduplicate`). A special case is that no name but the start name has
rules with different values (`Grammar.exists_interchangeable`).

It changes the language where a name has other alternatives than the one that it shares, where the
name that stays holds the separator of keys, where two names come first in turns, and where a name
is merged into one that has been merged in part (`Grammar.language_deduplicate_ne`).
-/

namespace GrammarInduction

/-- Symbols of one kind that have one representative; tokens are the same. -/
structure Corresponds (σ : String → String) (x y : Symbol) : Prop where
  kind : x.terminal = y.terminal
  names : σ x.value = σ y.value
  token : x.terminal = true → x.value = y.value

theorem Corresponds.symm {σ : String → String} {x y : Symbol} (h : Corresponds σ x y) :
    Corresponds σ y x :=
  ⟨h.kind.symm, h.names.symm, fun ht => (h.token (h.kind.trans ht)).symm⟩

namespace Grammar

variable {g : Grammar} {σ s : String → String} {loose : String → Prop} {rest : List Rule}

theorem Readable.not_name (h : g.Readable) {r : Rule} (hr : r ∈ g.rules) {x : Symbol}
    (hx : x ∈ r.rhs) (ht : x.terminal = true) : ¬ OtherName g.start g.rules x.value :=
  fun ⟨q, hq, _, hl⟩ => (h.names r hr x hx ht q hq).1 hl

/-- No name has the representative of a token. -/
theorem Readable.names_ne (h : g.Readable) (hi : Interchangeable g.start g.rules σ loose)
    {r q : Rule} (hr : r ∈ g.rules) (hq : q ∈ g.rules) {x y : Symbol} (hx : x ∈ r.rhs)
    (hxt : x.terminal = true) (hy : y ∈ q.rhs) (hyt : y.terminal = false) :
    σ y.value ≠ σ x.value := by
  intro hv
  have hname := h.not_name hr hx hxt
  rw [hi.fixed x.value hname] at hv
  by_cases hself : σ y.value = y.value
  · exact (h.names r hr x hx hxt q hq).2 y hy hyt (hself.symm.trans hv)
  · exact hname (hv ▸ hi.target y.value hself)

/-- Where values have one representative, the symbols that are left are like those there were. -/
theorem corresponds (h : g.Readable) (hi : Interchangeable g.start g.rules σ loose)
    (hrest : Remains g.start g.rules σ loose s rest) {r q : Rule} (hr : r ∈ g.rules)
    (hq : q ∈ g.rules) {x y : Symbol} (hx : x ∈ r.rhs) (hy : y ∈ q.rhs)
    (hv : σ x.value = σ y.value) : Corresponds σ { x with value := s x.value } y where
  names := (hrest.absorbs x.value).trans hv
  kind := by
    show x.terminal = y.terminal
    cases hxt : x.terminal <;> cases hyt : y.terminal
    · rfl
    · exact absurd hv (h.names_ne hi hq hr hy hyt hx hxt)
    · exact absurd hv.symm (h.names_ne hi hr hq hx hxt hy hyt)
    · rfl
  token := by
    intro (hxt : x.terminal = true)
    have hx' := h.not_name hr hx hxt
    show s x.value = y.value
    rw [hrest.survive.fixed x.value hx']
    cases hyt : y.terminal
    · exact absurd hv.symm (h.names_ne hi hr hq hx hxt hy hyt)
    · rwa [hi.fixed x.value hx', hi.fixed y.value (h.not_name hq hy hyt)] at hv

section
variable (h : g.Readable) (hi : Interchangeable g.start g.rules σ loose)
  (hrest : Remains g.start g.rules σ loose s rest)
include h hi hrest

theorem rest_corresponds {r q : Rule} (hr : r ∈ g.rules) (hq : q ∈ g.rules)
    (hv : r.values.map σ = q.values.map σ) :
    List.Forall₂ (Corresponds σ) (r.mapValues s).rhs q.rhs := by
  rw [Rule.values, Rule.values, List.map_map, List.map_map] at hv
  rw [Rule.mapValues, List.forall₂_map_left_iff]
  exact forall₂_of_map_eq (fun x hx y hy hxy => corresponds h hi hrest hr hq hx hy hxy) hv

/-- What is left goes along with what there was. -/
theorem rest_simulates : Simulates rest g.rules (Corresponds σ) where
  kind := Corresponds.kind
  value := Corresponds.token
  rule := by
    intro x y hxy ht q hq hl
    obtain ⟨p, hp, rfl⟩ := hrest.survive.exists_of_mem hq
    obtain ⟨p', hp', hl', hv⟩ :=
      hi.exists_alternative hp (hxy.names.symm.trans (congrArg σ hl.symm))
    exact ⟨p', hp', hl', rest_corresponds h hi hrest hp hp' hv.symm⟩

theorem corresponds_rest {r q : Rule} (hr : r ∈ g.rules) (hq : q ∈ rest)
    (hv : q.values.map σ = r.values.map σ) :
    List.Forall₂ (fun x y => y.value ∈ Set.range s ∧ Corresponds σ y x) r.rhs q.rhs := by
  obtain ⟨p, hp, rfl⟩ := hrest.survive.exists_of_mem hq
  rw [Rule.mapValues_values, List.map_map, show σ ∘ s = σ from funext hrest.absorbs] at hv
  have hrhs := rest_corresponds h hi hrest hp hr hv
  refine ((List.forall₂_and_left _ _).2 ⟨fun y hy => ?_, hrhs⟩).flip
  obtain ⟨x, -, rfl⟩ := List.mem_map.1 hy
  exact ⟨x.value, rfl⟩

/-- What there was goes along with what is left, where every name is written for some name. -/
theorem simulates_rest :
    Simulates g.rules rest fun x y => y.value ∈ Set.range s ∧ Corresponds σ y x where
  kind := fun hxy => hxy.2.kind.symm
  value := fun hxy => hxy.2.symm.token
  rule := by
    rintro x y ⟨⟨v, hv⟩, hxy⟩ ht r hr hl
    have hσ : σ v = σ r.lhs := by rw [← hrest.absorbs v, hv, hxy.names, hl]
    obtain ⟨q, hq, hql, hqv⟩ := hrest.covers v r hr hσ
    exact ⟨q, hq, hql.trans hv, corresponds_rest h hi hrest hr hq hqv⟩

theorem language_of_remains : Grammar.language { g with rules := rest } = g.language := by
  ext ws
  constructor
  · rintro ⟨q, hq, hl, hw⟩
    obtain ⟨p, hp, rfl⟩ := hrest.survive.exists_of_mem hq
    have hrhs := rest_corresponds h hi hrest hp hp rfl
    exact ⟨p, hp, hl, (rest_simulates h hi hrest).spells hw hrhs⟩
  · rintro ⟨r, hr, hl, hw⟩
    obtain ⟨q, hq, hql, hqv⟩ := hrest.covers r.lhs r hr rfl
    have hrhs := corresponds_rest h hi hrest hr hq hqv
    refine ⟨q, hq, ?_, (simulates_rest h hi hrest).spells hw hrhs⟩
    rw [hql, hl]
    exact (hrest.survive.eq_start_iff g.start).2 rfl

end

/-- Deduplication keeps the language, if no name but the start name holds the separator of keys, and
the names that may be merged are interchangeable. -/
theorem language_deduplicate {g : Grammar} (h : g.Readable)
    (hsep : ∀ r ∈ g.rules, r.lhs ≠ g.start → '\x1f' ∉ r.lhs.toList) {σ : String → String}
    {loose : String → Prop} (hi : Interchangeable g.start g.rules σ loose) :
    g.deduplicate.2.language = g.language := by
  obtain ⟨s, hrest⟩ := mergeTwins_remains hi h.ids ⟨h.rhs_ne, h.values, hsep⟩
  exact language_of_remains h hi hrest

/-- So they are if no name but the start name has alternatives with different values. -/
theorem exists_interchangeable {g : Grammar} (h : g.Readable)
    (hsep : ∀ r ∈ g.rules, r.lhs ≠ g.start → '\x1f' ∉ r.lhs.toList)
    (hone : ∀ r ∈ g.rules, r.lhs ≠ g.start → Agreed g.rules r.lhs) :
    ∃ σ, Interchangeable g.start g.rules σ fun _ => True := by
  have ha : ∀ name ≠ g.start, Agreed g.rules name := by
    rintro _ hne r hr q hq rfl hql
    exact hone r hr hne r hr q hq rfl hql
  obtain ⟨⟨s, hm⟩, hno, -⟩ := deduplicate_merged h.ids ⟨h.rhs_ne, h.values, hsep⟩ ha
  have hcongruent := hm.congruent hno
  -- all that is left of names with one substitute are rules of one name
  have hvalues : ∀ r ∈ g.rules, ∀ q ∈ g.rules, r.lhs ≠ g.start → s q.lhs = s r.lhs →
      q.values.map s = r.values.map s := by
    intro r hr q hq hne hl
    obtain ⟨r', hr', hrl, hrv⟩ := hm.covers r hr
    obtain ⟨q', hq', hql, hqv⟩ := hm.covers q hq
    have hs : s r.lhs ≠ g.start := mt (hm.survive.eq_start_iff r.lhs).1 hne
    rw [← hrv, ← hqv]
    exact hm.survive.agreed (ha _ hs) q' hq' r' hr' (hql.trans hl) hrl
  refine ⟨s, ?_⟩
  constructor
  · exact hm.survive.fixed
  · exact hm.survive.target
  · exact hm.least s hcongruent
  · exact hcongruent
  · intro r hr q hq hne hl
    exact ⟨q, hq, rfl, (hvalues q hq r hr hne hl.symm).symm⟩
  · exact fun r hr q hq hne _ hl => hvalues r hr q hq hne hl
  · exact fun r hr t ht _ _ _ _ _ hloose => absurd trivial hloose

/-- Names that become equal one after the other, one of them with a rule that is there twice; they
refer back to the start name. -/
def chained : Grammar where
  start := "S"
  rules :=
    [⟨"S", [⟨"A", false, 0⟩, ⟨"d", true, 1⟩], 0⟩, ⟨"S", [⟨"B", false, 2⟩, ⟨"d", true, 3⟩], 1⟩,
      ⟨"S", [⟨"e", true, 4⟩], 2⟩, ⟨"A", [⟨"C", false, 5⟩, ⟨"S", false, 6⟩], 3⟩,
      ⟨"B", [⟨"D", false, 7⟩, ⟨"S", false, 8⟩], 4⟩, ⟨"C", [⟨"x", true, 9⟩], 5⟩,
      ⟨"D", [⟨"x", true, 10⟩], 6⟩, ⟨"D", [⟨"x", true, 11⟩], 7⟩]
  supply := ⟨12, 8, 0⟩

/-- Three copies of non-empty lists, and of their two items. -/
def copied : Grammar where
  start := "S"
  rules :=
    [⟨"S", [⟨"L", false, 0⟩, ⟨"c", true, 1⟩], 0⟩, ⟨"S", [⟨"M", false, 2⟩, ⟨"c", true, 3⟩], 1⟩,
      ⟨"S", [⟨"N", false, 4⟩, ⟨"d", true, 5⟩], 2⟩, ⟨"L", [⟨"I", false, 6⟩, ⟨"L", false, 7⟩], 3⟩,
      ⟨"L", [⟨"I", false, 8⟩], 4⟩, ⟨"M", [⟨"J", false, 9⟩, ⟨"M", false, 10⟩], 5⟩,
      ⟨"M", [⟨"J", false, 11⟩], 6⟩, ⟨"N", [⟨"K", false, 12⟩, ⟨"N", false, 13⟩], 7⟩,
      ⟨"N", [⟨"K", false, 14⟩], 8⟩, ⟨"I", [⟨"a", true, 15⟩], 9⟩, ⟨"I", [⟨"b", true, 16⟩], 10⟩,
      ⟨"J", [⟨"a", true, 17⟩], 11⟩, ⟨"J", [⟨"b", true, 18⟩], 12⟩, ⟨"K", [⟨"a", true, 19⟩], 13⟩,
      ⟨"K", [⟨"b", true, 20⟩], 14⟩]
  supply := ⟨21, 15, 0⟩

/-- The first copy stands for the others. -/
def firstCopy (v : String) : String :=
  if v = "M" ∨ v = "N" then "L" else if v = "J" ∨ v = "K" then "I" else v

theorem firstCopy_eq_self_or_mem (v : String) :
    firstCopy v = v ∨ v ∈ ["M", "N", "J", "K"] := by
  by_cases hv : v ∈ ["M", "N", "J", "K"]
  · exact .inr hv
  · simp only [List.mem_cons, List.not_mem_nil, or_false, not_or] at hv
    left
    rw [firstCopy, if_neg (not_or.2 ⟨hv.1, hv.2.1⟩), if_neg (not_or.2 hv.2.2)]

theorem interchangeable_copied :
    Interchangeable copied.start copied.rules firstCopy fun _ => False where
  fixed := by
    intro v hv
    have hname : ∀ v ∈ ["M", "N", "J", "K"], OtherName copied.start copied.rules v := by
      unfold OtherName
      decide
    exact (firstCopy_eq_self_or_mem v).resolve_right fun hmem => hv (hname v hmem)
  target := by
    intro v hv
    have hname : ∀ v ∈ ["M", "N", "J", "K"],
        OtherName copied.start copied.rules (firstCopy v) := by
      unfold OtherName
      decide
    exact hname v ((firstCopy_eq_self_or_mem v).resolve_left hv)
  idem := by
    intro v
    have hidem : ∀ v ∈ ["M", "N", "J", "K"], firstCopy (firstCopy v) = firstCopy v := by decide
    rcases firstCopy_eq_self_or_mem v with hv | hv
    · exact congrArg firstCopy hv
    · exact hidem v hv
  congruent := by unfold Congruent; decide +kernel
  alternatives := by decide +kernel
  uniform := fun _ _ _ _ _ hloose => hloose.elim
  first := by unfold Between; decide +kernel

theorem language_deduplicate_chained :
    (chained.deduplicate.1 = 4 ∧ chained.deduplicate.2.language = chained.language) ∧
      copied.deduplicate.1 = 9 ∧ copied.deduplicate.2.language = copied.language := by
  have hchained : chained.Readable := ⟨by decide, by decide, by decide, by decide⟩
  have hcopied : copied.Readable := ⟨by decide, by decide, by decide +kernel, by decide +kernel⟩
  obtain ⟨σ, hσ⟩ := exists_interchangeable hchained (by decide) (by unfold Agreed; decide)
  exact ⟨⟨by decide +kernel, language_deduplicate hchained (by decide) hσ⟩, by decide +kernel,
    language_deduplicate hcopied (by decide) interchangeable_copied⟩

/-! ### What the conditions are for -/

/-- A name with two alternatives, one of which another name has as well. -/
def shared : Grammar where
  start := "S"
  rules :=
    [⟨"S", [⟨"B", false, 0⟩], 0⟩, ⟨"A", [⟨"a", true, 1⟩], 1⟩, ⟨"B", [⟨"a", true, 2⟩], 2⟩,
      ⟨"B", [⟨"b", true, 3⟩], 3⟩]
  supply := ⟨4, 4, 0⟩

/-- Two names with the same alternatives, each of which comes first once. -/
def crossed : Grammar where
  start := "S"
  rules :=
    [⟨"S", [⟨"A", false, 0⟩], 0⟩, ⟨"A", [⟨"a", true, 1⟩], 1⟩, ⟨"B", [⟨"a", true, 2⟩], 2⟩,
      ⟨"B", [⟨"b", true, 3⟩], 3⟩, ⟨"A", [⟨"b", true, 4⟩], 4⟩]
  supply := ⟨5, 5, 0⟩

/-- Three names with the same alternatives once others are merged. The third is merged into the
second, which has lost an alternative to the first already. -/
def bypassed : Grammar where
  start := "S"
  rules :=
    [⟨"S", [⟨"C", false, 0⟩], 0⟩, ⟨"A", [⟨"F", false, 1⟩], 1⟩, ⟨"A", [⟨"X", false, 2⟩], 2⟩,
      ⟨"B", [⟨"F", false, 3⟩], 3⟩, ⟨"B", [⟨"Y", false, 4⟩], 4⟩, ⟨"C", [⟨"Y", false, 5⟩], 5⟩,
      ⟨"C", [⟨"G", false, 6⟩], 6⟩, ⟨"X", [⟨"x", true, 7⟩, ⟨"A", false, 8⟩], 7⟩,
      ⟨"Y", [⟨"x", true, 9⟩, ⟨"C", false, 10⟩], 8⟩, ⟨"F", [⟨"f", true, 11⟩], 9⟩,
      ⟨"G", [⟨"f", true, 12⟩], 10⟩]
  supply := ⟨13, 11, 0⟩

/-- The representatives in `bypassed`. -/
def bypass (v : String) : String :=
  if v = "B" ∨ v = "C" then "A" else if v = "Y" then "X" else if v = "G" then "F" else v

/-- A name with one rule, to another name with one rule of tokens, derives these and nothing else. -/
theorem derives_iff_of_single {g : Grammar} {r q : Rule} {i : Nat}
    (hr : g.alternatives r.lhs = [r]) (hrhs : r.rhs = [⟨q.lhs, false, i⟩])
    (hq : g.alternatives q.lhs = [q]) (ht : ∀ x ∈ q.rhs, x.terminal = true) {ws : List String} :
    g.Derives r.lhs ws ↔ ws = q.values := by
  rw [derives_iff_of_alternatives hr, hrhs, spells_iff_derives rfl,
    derives_iff_of_alternatives hq, spells_terminals ht, Rule.values]

theorem shared_loses :
    ["b"] ∈ shared.language ∧ ["b"] ∉ shared.deduplicate.2.language := by
  constructor
  · exact ⟨⟨"S", [⟨"B", false, 0⟩], 0⟩, by decide, rfl, (spells_iff_derives rfl).2
      ⟨⟨"B", [⟨"b", true, 3⟩], 3⟩, by decide, rfl, (spells_terminals (by decide)).2 rfl⟩⟩
  · intro h
    have hleft := (derives_iff_of_single (r := ⟨"S", [⟨"A", false, 0⟩], 0⟩)
      (q := ⟨"A", [⟨"a", true, 1⟩], 1⟩) (by decide +kernel) rfl (by decide +kernel)
      (by decide)).1 h
    exact absurd hleft (by decide)

theorem joined_loses :
    ["a", "b"] ∈ joined.language ∧ ["a", "b"] ∉ joined.deduplicate.2.language := by
  constructor
  · exact ⟨⟨"S", [⟨"a", true, 3⟩, ⟨"b", true, 4⟩], 3⟩, by decide, rfl,
      (spells_terminals (by decide)).2 rfl⟩
  · intro h
    have hleft := (derives_iff_of_single (r := ⟨"S", [⟨"a\x1fb", false, 2⟩], 2⟩)
      (q := ⟨"a\x1fb", [⟨"c", true, 0⟩], 0⟩) (by decide +kernel) rfl (by decide +kernel)
      (by decide)).1 h
    exact absurd hleft (by decide)

theorem crossed_loses :
    ["a"] ∈ crossed.language ∧ ["a"] ∉ crossed.deduplicate.2.language := by
  constructor
  · exact ⟨⟨"S", [⟨"A", false, 0⟩], 0⟩, by decide, rfl, (spells_iff_derives rfl).2
      ⟨⟨"A", [⟨"a", true, 1⟩], 1⟩, by decide, rfl, (spells_terminals (by decide)).2 rfl⟩⟩
  · intro h
    have hleft := (derives_iff_of_single (r := ⟨"S", [⟨"B", false, 0⟩], 0⟩)
      (q := ⟨"B", [⟨"b", true, 3⟩], 3⟩) (by decide +kernel) rfl (by decide +kernel)
      (by decide)).1 h
    exact absurd hleft (by decide)

/-- A name all of whose rules need such a name again derives nothing. -/
theorem not_spells_of_loop {rules : List Rule} {names : List String}
    (h : ∀ r ∈ rules, r.lhs ∈ names → ∃ x ∈ r.rhs, x.terminal = false ∧ x.value ∈ names)
    {xs : List Symbol} {ws : List String} (hw : Spells rules xs ws) :
    ∀ x ∈ xs, x.terminal = false → x.value ∉ names := by
  induction hw with
  | nil => exact fun x hx => nomatch hx
  | terminal ht _ ih =>
    intro x hx hxt
    rcases List.mem_cons.1 hx with rfl | hx
    · rw [ht] at hxt; cases hxt
    · exact ih x hx hxt
  | nonterminal _ hr hl _ _ ih₁ ih₂ =>
    intro x hx hxt
    rcases List.mem_cons.1 hx with rfl | hx
    · intro hname
      obtain ⟨y, hy, hyt, hyname⟩ := h _ hr (hl ▸ hname)
      exact ih₁ y hy hyt hyname
    · exact ih₂ x hx hxt

theorem bypassed_loses :
    ["f"] ∈ bypassed.language ∧ ["f"] ∉ bypassed.deduplicate.2.language := by
  constructor
  · exact ⟨⟨"S", [⟨"C", false, 0⟩], 0⟩, by decide, rfl, (spells_iff_derives rfl).2
      ⟨⟨"C", [⟨"G", false, 6⟩], 6⟩, by decide, rfl, (spells_iff_derives rfl).2
        ⟨⟨"G", [⟨"f", true, 12⟩], 10⟩, by decide, rfl, (spells_terminals (by decide)).2 rfl⟩⟩⟩
  · rintro ⟨r, hr, hl, hw⟩
    have hloop : ∀ r ∈ bypassed.deduplicate.2.rules, r.lhs ∈ ["S", "B", "Y"] →
        ∃ x ∈ r.rhs, x.terminal = false ∧ x.value ∈ ["S", "B", "Y"] := by decide +kernel
    obtain ⟨x, hx, hxt, hname⟩ := hloop r hr (hl ▸ List.mem_cons_self)
    exact not_spells_of_loop hloop hw x hx hxt hname

/-- Without conditions on alternatives, on names, on the order of alternatives, or on what comes
between rules of other names than the representative, deduplication loses words. -/
theorem language_deduplicate_ne :
    (shared.Readable ∧ (∀ r ∈ shared.rules, '\x1f' ∉ r.lhs.toList) ∧
      ["b"] ∈ shared.language ∧ ["b"] ∉ shared.deduplicate.2.language) ∧
    (joined.Readable ∧
      (∀ r ∈ joined.rules, r.lhs ≠ joined.start → joined.alternatives r.lhs = [r]) ∧
      ["a", "b"] ∈ joined.language ∧ ["a", "b"] ∉ joined.deduplicate.2.language) ∧
    (crossed.Readable ∧ (∀ r ∈ crossed.rules, '\x1f' ∉ r.lhs.toList) ∧
      ((crossed.alternatives "A").map Rule.values).Perm
        ((crossed.alternatives "B").map Rule.values) ∧
      ["a"] ∈ crossed.language ∧ ["a"] ∉ crossed.deduplicate.2.language) ∧
    (bypassed.Readable ∧ (∀ r ∈ bypassed.rules, '\x1f' ∉ r.lhs.toList) ∧
      (∀ r ∈ bypassed.rules, ∀ q ∈ bypassed.rules, bypass r.lhs = bypass q.lhs →
        ((bypassed.alternatives r.lhs).map fun p => p.values.map bypass).Perm
          ((bypassed.alternatives q.lhs).map fun p => p.values.map bypass)) ∧
      (bypassed.rules.Pairwise fun r t => r.values.map bypass = t.values.map bypass →
        bypass r.lhs = bypass t.lhs ∧ (bypass t.lhs = t.lhs → r.lhs = t.lhs)) ∧
      ["f"] ∈ bypassed.language ∧ ["f"] ∉ bypassed.deduplicate.2.language) := by
  have hshared : shared.Readable := ⟨by decide, by decide, by decide, by decide⟩
  have hjoined : joined.Readable := ⟨by decide, by decide, by decide, by decide⟩
  have hcrossed : crossed.Readable := ⟨by decide, by decide, by decide, by decide⟩
  have hbypassed : bypassed.Readable :=
    ⟨by decide, by decide, by decide, by decide +kernel⟩
  exact ⟨⟨hshared, by decide, shared_loses⟩, ⟨hjoined, by decide, joined_loses⟩,
    ⟨hcrossed, by decide, by decide, crossed_loses⟩,
    hbypassed, by decide, by decide +kernel, by decide +kernel, bypassed_loses⟩

end Grammar

end GrammarInduction
