import GrammarInduction.Grammar.Basic
import Mathlib.Data.List.Forall2
import Mathlib.Data.Set.Defs

/-!
# The language of a grammar

`Spells rules xs ws`: the symbols `xs` can be expanded to the words `ws`, each non-terminal by any
rule of its name, to any depth. The language of a grammar is what its start name derives.

A relation between the symbols of two lists of rules that goes along with their rules (`Simulates`)
takes what symbols spell to what related symbols spell (`Simulates.spells`).

`Unfolds rules xs f` records in addition how the words are nested: the forest `f` has a group for
every non-terminal, without its name. A forest has one sequence of words (`spells_iff`), so what
keeps the unfolding of a symbol sequence keeps its words too. Both look at values and kinds of
symbols alone (`Spells.congr`, `Unfolds.congr`).
-/

namespace GrammarInduction

/-- What derivations see of a symbol. -/
def Symbol.shape (s : Symbol) : String × Bool := (s.value, s.terminal)

/-- Value sequences with the kind of each value. -/
def Rule.shapes (r : Rule) : List (String × Bool) := r.rhs.map Symbol.shape

theorem Supply.issue_shapes (s : Supply) (shapes : List (String × Bool)) :
    (s.issue shapes).1.map Symbol.shape = shapes := by
  rw [Supply.issue, List.map_map]
  exact List.zipIdx_map_fst s.nextSymbol shapes

theorem Supply.issue_ids (s : Supply) (shapes : List (String × Bool)) :
    (s.issue shapes).1.map Symbol.id = List.range' s.nextSymbol shapes.length := by
  rw [Supply.issue, List.map_map]
  exact List.zipIdx_map_snd s.nextSymbol shapes

/-- `xs` can be expanded to the words `ws`. -/
inductive Spells (rules : List Rule) : List Symbol → List String → Prop
  | nil : Spells rules [] []
  | terminal {s : Symbol} {xs : List Symbol} {ws : List String} :
      s.terminal = true → Spells rules xs ws → Spells rules (s :: xs) (s.value :: ws)
  | nonterminal {s : Symbol} {xs : List Symbol} {us ws : List String} {r : Rule} :
      s.terminal = false → r ∈ rules → r.lhs = s.value → Spells rules r.rhs us →
      Spells rules xs ws → Spells rules (s :: xs) (us ++ ws)

namespace Grammar

/-- One of the alternatives of `name` can be expanded to `ws`. -/
def Derives (g : Grammar) (name : String) (ws : List String) : Prop :=
  ∃ r ∈ g.rules, r.lhs = name ∧ Spells g.rules r.rhs ws

/-- The word sequences that the start name derives. -/
def language (g : Grammar) : Set (List String) := {ws | g.Derives g.start ws}

end Grammar

/-! ## Sequences of symbols -/

theorem Spells.append {rules : List Rule} {xs ys : List Symbol} {us vs : List String}
    (h₁ : Spells rules xs us) (h₂ : Spells rules ys vs) : Spells rules (xs ++ ys) (us ++ vs) := by
  induction h₁ with
  | nil => exact h₂
  | terminal ht _ ih => exact .terminal ht ih
  | nonterminal ht hr hl hus _ _ ih =>
    rw [List.append_assoc]
    exact .nonterminal ht hr hl hus ih

theorem Spells.split {rules : List Rule} :
    ∀ {xs ys : List Symbol} {ws : List String}, Spells rules (xs ++ ys) ws →
      ∃ us vs, ws = us ++ vs ∧ Spells rules xs us ∧ Spells rules ys vs
  | [], _, ws, h => ⟨[], ws, rfl, .nil, h⟩
  | s :: xs, ys, ws, h => by
    cases h with
    | terminal ht h =>
      obtain ⟨us, vs, rfl, h₁, h₂⟩ := h.split
      exact ⟨s.value :: us, vs, rfl, .terminal ht h₁, h₂⟩
    | @nonterminal _ _ ts _ r ht hr hl hts h =>
      obtain ⟨us, vs, rfl, h₁, h₂⟩ := h.split
      exact ⟨ts ++ us, vs, (List.append_assoc ..).symm, .nonterminal ht hr hl hts h₁, h₂⟩

/-- A single non-terminal stands for what its rules spell. -/
theorem Spells.of_rule {rules : List Rule} {s : Symbol} {r : Rule} {us : List String}
    (ht : s.terminal = false) (hr : r ∈ rules) (hl : r.lhs = s.value) (h : Spells rules r.rhs us) :
    Spells rules [s] us := by
  have := Spells.nonterminal ht hr hl h .nil
  rwa [List.append_nil] at this

/-- A single non-terminal spells what its value derives. -/
theorem Grammar.spells_iff_derives {g : Grammar} {s : Symbol} (ht : s.terminal = false)
    {ws : List String} : Spells g.rules [s] ws ↔ g.Derives s.value ws := by
  constructor
  · intro h
    cases h with
    | terminal hst => rw [ht] at hst; cases hst
    | @nonterminal _ _ us _ r _ hr hl hus h =>
      cases h
      rw [List.append_nil]
      exact ⟨r, hr, hl, hus⟩
  · rintro ⟨r, hr, hl, hw⟩
    exact .of_rule ht hr hl hw

/-- A name with one rule derives what the rule spells. -/
theorem Grammar.derives_iff_of_alternatives {g : Grammar} {name : String} {r : Rule}
    (h : g.alternatives name = [r]) {ws : List String} :
    g.Derives name ws ↔ Spells g.rules r.rhs ws := by
  have hmem : ∀ q, q ∈ g.rules ∧ q.lhs = name ↔ q = r := by
    intro q
    rw [← List.mem_singleton (a := q), ← h, alternatives, List.mem_filter, beq_iff_eq]
  constructor
  · rintro ⟨q, hq, hl, hw⟩
    obtain rfl := (hmem q).1 ⟨hq, hl⟩
    exact hw
  · intro hw
    obtain ⟨hr, hl⟩ := (hmem r).2 rfl
    exact ⟨r, hr, hl, hw⟩

theorem shape_eq_iff {s t : Symbol} :
    s.shape = t.shape ↔ s.value = t.value ∧ s.terminal = t.terminal := by
  simp [Symbol.shape]

/-- A symbol of one sequence has its like in another one of the same shapes. -/
theorem exists_shape {xs ys : List Symbol} (h : xs.map Symbol.shape = ys.map Symbol.shape)
    {s : Symbol} (hs : s ∈ xs) : ∃ t ∈ ys, t.value = s.value ∧ t.terminal = s.terminal := by
  have hm := List.mem_map_of_mem (f := Symbol.shape) hs
  rw [h, List.mem_map] at hm
  obtain ⟨t, ht, he⟩ := hm
  exact ⟨t, ht, shape_eq_iff.1 he⟩

theorem map_fst_shape (xs : List Symbol) :
    (xs.map Symbol.shape).map Prod.fst = xs.map Symbol.value := by
  rw [List.map_map]
  rfl

theorem values_of_shapes {r : Rule} {shapes : List (String × Bool)} (h : r.shapes = shapes) :
    r.values = shapes.map Prod.fst := by
  rw [← h]
  exact (map_fst_shape r.rhs).symm

theorem Spells.congr {rules : List Rule} {xs ys : List Symbol} {ws : List String}
    (h : Spells rules xs ws) (hs : xs.map Symbol.shape = ys.map Symbol.shape) :
    Spells rules ys ws := by
  induction h generalizing ys with
  | nil =>
    obtain rfl : ys = [] := by simpa using hs.symm
    exact .nil
  | terminal ht _ ih =>
    obtain ⟨t, ys, rfl, h, hs⟩ := List.map_eq_cons_iff.1 hs.symm
    obtain ⟨hv, hk⟩ := shape_eq_iff.1 h
    rw [← hv]
    exact .terminal (hk.trans ht) (ih hs.symm)
  | nonterminal ht hr hl hus _ _ ih =>
    obtain ⟨t, ys, rfl, h, hs⟩ := List.map_eq_cons_iff.1 hs.symm
    obtain ⟨hv, hk⟩ := shape_eq_iff.1 h
    exact .nonterminal (hk.trans ht) hr (hl.trans hv.symm) hus (ih hs.symm)

/-- Terminals spell their values and nothing else. -/
theorem spells_terminals {rules : List Rule} :
    ∀ {xs : List Symbol} {ws : List String}, (∀ s ∈ xs, s.terminal = true) →
      (Spells rules xs ws ↔ ws = xs.map Symbol.value)
  | [], ws, _ => ⟨fun h => by cases h; rfl, fun h => h ▸ .nil⟩
  | s :: xs, ws, h => by
    have hs := h s List.mem_cons_self
    have ih := @spells_terminals rules xs
    constructor
    · intro hw
      cases hw with
      | terminal _ hw => rw [List.map_cons, (ih fun t ht => h t (.tail _ ht)).1 hw]
      | nonterminal ht => rw [hs] at ht; cases ht
    · intro hw
      rw [hw, List.map_cons]
      exact .terminal hs ((ih fun t ht => h t (.tail _ ht)).2 rfl)

/-! ## Simulation -/

/-- Related symbols are of one kind, related terminals are equal, and for every rule of a
non-terminal there is one of the related non-terminal with related symbols. -/
structure Simulates (rules rules' : List Rule) (E : Symbol → Symbol → Prop) : Prop where
  kind : ∀ {s t}, E s t → s.terminal = t.terminal
  value : ∀ {s t}, E s t → s.terminal = true → s.value = t.value
  rule : ∀ {s t}, E s t → s.terminal = false → ∀ r ∈ rules, r.lhs = s.value →
    ∃ q ∈ rules', q.lhs = t.value ∧ List.Forall₂ E r.rhs q.rhs

/-- Related symbols spell what the symbols spell. -/
theorem Simulates.spells {rules rules' : List Rule} {E : Symbol → Symbol → Prop}
    (hE : Simulates rules rules' E) {xs : List Symbol} {ws : List String}
    (h : Spells rules xs ws) : ∀ {ys : List Symbol}, List.Forall₂ E xs ys → Spells rules' ys ws := by
  induction h with
  | nil =>
    intro ys hxs
    cases hxs
    exact .nil
  | terminal ht _ ih =>
    rintro _ (_ | ⟨hst, hxs⟩)
    rw [hE.value hst ht]
    exact .terminal ((hE.kind hst).symm.trans ht) (ih hxs)
  | nonterminal ht hr hl _ _ ih₁ ih₂ =>
    rintro _ (_ | ⟨hst, hxs⟩)
    obtain ⟨q, hq, hql, hrhs⟩ := hE.rule hst ht _ hr hl
    exact .nonterminal ((hE.kind hst).symm.trans ht) hq hql (ih₁ hrhs) (ih₂ hxs)

/-! ## Nesting -/

/-- Words in groups: a sequence of words and of nested sequences. -/
inductive Forest where
  | nil
  | word (value : String) (rest : Forest)
  | group (inner rest : Forest)

/-- The words, left to right. -/
def Forest.words : Forest → List String
  | nil => []
  | word value rest => value :: rest.words
  | group inner rest => inner.words ++ rest.words

/-- `xs` can be expanded to `f`, with one group for each rule used. -/
inductive Unfolds (rules : List Rule) : List Symbol → Forest → Prop
  | nil : Unfolds rules [] .nil
  | terminal {s : Symbol} {xs : List Symbol} {f : Forest} :
      s.terminal = true → Unfolds rules xs f → Unfolds rules (s :: xs) (.word s.value f)
  | nonterminal {s : Symbol} {xs : List Symbol} {f₁ f₂ : Forest} {r : Rule} :
      s.terminal = false → r ∈ rules → r.lhs = s.value → Unfolds rules r.rhs f₁ →
      Unfolds rules xs f₂ → Unfolds rules (s :: xs) (.group f₁ f₂)

theorem spells_iff {rules : List Rule} {xs : List Symbol} {ws : List String} :
    Spells rules xs ws ↔ ∃ f, Unfolds rules xs f ∧ f.words = ws := by
  constructor
  · intro h
    induction h with
    | nil => exact ⟨.nil, .nil, rfl⟩
    | terminal ht _ ih =>
      obtain ⟨f, hf, rfl⟩ := ih
      exact ⟨_, .terminal ht hf, rfl⟩
    | nonterminal ht hr hl _ _ ih₁ ih₂ =>
      obtain ⟨f₁, hf₁, rfl⟩ := ih₁
      obtain ⟨f₂, hf₂, rfl⟩ := ih₂
      exact ⟨_, .nonterminal ht hr hl hf₁ hf₂, rfl⟩
  · rintro ⟨f, hf, rfl⟩
    induction hf with
    | nil => exact .nil
    | terminal ht _ ih => exact .terminal ht ih
    | nonterminal ht hr hl _ _ ih₁ ih₂ => exact .nonterminal ht hr hl ih₁ ih₂

theorem Unfolds.congr {rules : List Rule} {xs ys : List Symbol} {f : Forest}
    (h : Unfolds rules xs f) (hs : xs.map Symbol.shape = ys.map Symbol.shape) :
    Unfolds rules ys f := by
  induction h generalizing ys with
  | nil =>
    obtain rfl : ys = [] := by simpa using hs.symm
    exact .nil
  | terminal ht _ ih =>
    obtain ⟨t, ys, rfl, h, hs⟩ := List.map_eq_cons_iff.1 hs.symm
    obtain ⟨hv, hk⟩ := shape_eq_iff.1 h
    rw [← hv]
    exact .terminal (hk.trans ht) (ih hs.symm)
  | nonterminal ht hr hl hf _ _ ih =>
    obtain ⟨t, ys, rfl, h, hs⟩ := List.map_eq_cons_iff.1 hs.symm
    obtain ⟨hv, hk⟩ := shape_eq_iff.1 h
    exact .nonterminal (hk.trans ht) hr (hl.trans hv.symm) hf (ih hs.symm)

end GrammarInduction
