import GrammarInduction.Derivation.Basic
import Mathlib.Data.List.Forall2

/-!
# Outcomes of derivations

`m.outcome s` is what the picking computation `m` gives from the state `s`: a result or a failure,
and the state that it leaves. Expanding a name to a tree picks an alternative and then expands its
symbols from left to right (`Grammar.expandTree_succ`). Of the grammar it depends on the rules alone
(`Grammar.expandTree_congr`).

Expanding to words takes the same course. The words are the leaves of the tree, as an equation
between the two computations (`Grammar.words_expandFlat`), so they fail alike and leave the same
state (`Grammar.generate_agrees`).
-/

namespace GrammarInduction

variable {σ α β : Type}

namespace Picking

/-- The result from a state, and the state afterwards. -/
def outcome (m : Picking σ α) (s : σ) : Except GrammarError α × σ := (ExceptT.run m).run s

theorem outcome_pure (a : α) (s : σ) : (pure a : Picking σ α).outcome s = (.ok a, s) := rfl

theorem outcome_bind (m : Picking σ α) (f : α → Picking σ β) (s : σ) :
    (m >>= f).outcome s = match m.outcome s with
      | (.ok a, s') => (f a).outcome s'
      | (.error e, s') => (.error e, s') := by
  simp only [outcome, ExceptT.run_bind, StateT.run_bind]
  rcases (ExceptT.run m).run s with ⟨_ | _, _⟩ <;> rfl

theorem outcome_bind_ok {m : Picking σ α} {f : α → Picking σ β} {s s' : σ} {a : α}
    (h : m.outcome s = (.ok a, s')) : (m >>= f).outcome s = (f a).outcome s' := by
  rw [outcome_bind, h]

theorem bind_eq_ok {m : Picking σ α} {f : α → Picking σ β} {s s' : σ} {b : β}
    (h : (m >>= f).outcome s = (.ok b, s')) :
    ∃ a s₁, m.outcome s = (.ok a, s₁) ∧ (f a).outcome s₁ = (.ok b, s') := by
  rw [outcome_bind] at h
  rcases hm : m.outcome s with ⟨e | a, s₁⟩
  · rw [hm] at h
    cases h
  · rw [hm] at h
    exact ⟨a, s₁, rfl, h⟩

/-- Computing something from the result leaves failures and states as they are. -/
theorem outcome_map (f : α → β) (m : Picking σ α) (s : σ) :
    (f <$> m).outcome s = ((m.outcome s).1.map f, (m.outcome s).2) := by
  rw [← bind_pure_comp, outcome_bind]
  rcases m.outcome s with ⟨_ | _, _⟩ <;> rfl

/-! ## One computation for each element -/

theorem map_mapM {γ : Type} (f : β → γ) (m : α → Picking σ β) :
    ∀ xs : List α, List.map f <$> xs.mapM m = xs.mapM fun x => f <$> m x
  | [] => by simp
  | x :: xs => by simp [List.mapM_cons, ← map_mapM f m xs]

theorem forall₂_of_mapM {m : α → Picking σ β} : ∀ {xs : List α} {ys : List β} {s s' : σ},
    (xs.mapM m).outcome s = (.ok ys, s') →
      List.Forall₂ (fun x y => ∃ s s', (m x).outcome s = (.ok y, s')) xs ys
  | [], _, _, _, h => by
    rw [List.mapM_nil] at h
    cases h
    exact .nil
  | x :: xs, ys, s, s', h => by
    rw [List.mapM_cons] at h
    obtain ⟨y, s₁, hy, h⟩ := bind_eq_ok h
    obtain ⟨ys, s₂, hys, h⟩ := bind_eq_ok h
    cases h
    exact .cons ⟨s, s₁, hy⟩ (forall₂_of_mapM hys)

/-- Computations that succeed from every state succeed one after the other. -/
theorem exists_mapM {m : α → Picking σ β} : ∀ {xs : List α},
    (∀ x ∈ xs, ∀ s, ∃ y s', (m x).outcome s = (.ok y, s')) →
      ∀ s, ∃ ys s', (xs.mapM m).outcome s = (.ok ys, s')
  | [], _, s => ⟨[], s, by rw [List.mapM_nil]; rfl⟩
  | x :: xs, h, s => by
    obtain ⟨y, s₁, hy⟩ := h x List.mem_cons_self s
    obtain ⟨ys, s₂, hys⟩ := exists_mapM (fun x hx => h x (.tail _ hx)) s₁
    refine ⟨y :: ys, s₂, ?_⟩
    rw [List.mapM_cons, outcome_bind_ok hy, outcome_bind_ok hys, outcome_pure]

end Picking

namespace Grammar

variable {g : Grammar} {c : Chooser σ} {limit levels : Nat} {name : String}

/-! ## Picking an alternative -/

theorem mem_alternatives {r : Rule} : r ∈ g.alternatives name ↔ r ∈ g.rules ∧ r.lhs = name := by
  rw [alternatives, List.mem_filter, beq_iff_eq]

theorem outcome_choose {r : Rule} {rest : List Rule} (h : g.alternatives name = r :: rest) (s : σ) :
    (g.choose c name).outcome s =
      (.ok ((r :: rest).get (c.pick rest.length s).1), (c.pick rest.length s).2) := by
  rw [choose, h]
  rfl

/-- A name with rules can be expanded by what is picked. -/
theorem exists_choose (h : ∃ r ∈ g.rules, r.lhs = name) (s : σ) :
    ∃ r s', (g.choose c name).outcome s = (.ok r, s') := by
  obtain ⟨q, hq⟩ := h
  cases ha : g.alternatives name with
  | nil => exact absurd (ha ▸ mem_alternatives.2 hq) List.not_mem_nil
  | cons r rest => exact ⟨_, _, outcome_choose ha s⟩

/-- What is picked is a rule of the name. -/
theorem mem_of_choose {s s' : σ} {r : Rule} (h : (g.choose c name).outcome s = (.ok r, s')) :
    r ∈ g.rules ∧ r.lhs = name := by
  cases ha : g.alternatives name with
  | nil =>
    rw [choose, ha] at h
    cases h
  | cons q rest =>
    rw [outcome_choose ha] at h
    cases h
    refine mem_alternatives.1 ?_
    rw [ha]
    exact List.get_mem ..

/-! ## Expanding a name -/

/-- A symbol of a rule of `name`: a leaf, or the expansion of a non-terminal. -/
def expandSymbol (g : Grammar) (c : Chooser σ) (limit levels : Nat) (name : String) (s : Symbol) :
    Picking σ Tree :=
  if s.terminal then pure (.node s.value (some name) true [])
  else g.expandTree c limit levels (some name) s.value

theorem expandTree_succ (parent : Option String) :
    g.expandTree c limit (levels + 1) parent name = (do
      let r ← g.choose c name
      let children ← r.rhs.mapM (g.expandSymbol c limit levels name)
      return .node name parent false children) := rfl

/-- A tree is a rule that was picked, with trees for its symbols. -/
theorem expandTree_eq_ok {parent : Option String} {s s' : σ} {t : Tree}
    (h : (g.expandTree c limit (levels + 1) parent name).outcome s = (.ok t, s')) :
    ∃ r ∈ g.rules, r.lhs = name ∧ ∃ children, t = .node name parent false children ∧
      List.Forall₂ (fun x u => ∃ s s', (g.expandSymbol c limit levels name x).outcome s =
        (.ok u, s')) r.rhs children := by
  rw [expandTree_succ] at h
  obtain ⟨r, s₁, hr, h⟩ := Picking.bind_eq_ok h
  obtain ⟨children, s₂, hc, h⟩ := Picking.bind_eq_ok h
  cases h
  obtain ⟨hmem, hl⟩ := mem_of_choose hr
  exact ⟨r, hmem, hl, children, rfl, Picking.forall₂_of_mapM hc⟩

theorem expandTree_of_mapM {parent : Option String} {s s₁ s' : σ} {r : Rule} {children : List Tree}
    (hr : (g.choose c name).outcome s = (.ok r, s₁))
    (hc : (r.rhs.mapM (g.expandSymbol c limit levels name)).outcome s₁ = (.ok children, s')) :
    (g.expandTree c limit (levels + 1) parent name).outcome s =
      (.ok (.node name parent false children), s') := by
  rw [expandTree_succ, Picking.outcome_bind_ok hr, Picking.outcome_bind_ok hc, Picking.outcome_pure]

/-! ## What an expansion depends on -/

section
variable {h : Grammar} (hrules : h.rules = g.rules)
include hrules

theorem choose_congr : h.choose c name = g.choose c name := by
  simp only [choose, alternatives, hrules]

theorem expandFlat_congr : ∀ (levels : Nat) (name : String),
    h.expandFlat c limit levels name = g.expandFlat c limit levels name
  | 0, _ => rfl
  | levels + 1, name => by
    rw [expandFlat, expandFlat, choose_congr hrules]
    simp only [expandFlat_congr levels]

theorem expandTree_congr : ∀ (levels : Nat) (parent : Option String) (name : String),
    h.expandTree c limit levels parent name = g.expandTree c limit levels parent name
  | 0, _, _ => rfl
  | levels + 1, parent, name => by
    rw [expandTree, expandTree, choose_congr hrules]
    simp only [expandTree_congr levels]

end

end Grammar

/-! ## Words and leaves -/

namespace Tree

theorem leavesOf_eq_flatten : ∀ ts : List Tree, leavesOf ts = (ts.map leaves).flatten
  | [] => rfl
  | t :: ts => by rw [leavesOf, leavesOf_eq_flatten ts, List.map_cons, List.flatten_cons]

/-- The leaves below a non-terminal are those of its children, of which there may be none. -/
theorem leaves_nonterminal (name : String) (parent : Option String) (children : List Tree) :
    (node name parent false children).leaves = (children.map leaves).flatten := by
  cases children with
  | nil => rfl
  | cons t ts => rw [leaves, leavesOf_eq_flatten]; rfl

end Tree

namespace Grammar

variable (g : Grammar) (c : Chooser σ)

/-- The words that a name is expanded to are the leaves of its tree. -/
theorem words_expandFlat (limit : Nat) : ∀ (levels : Nat) (parent : Option String) (name : String),
    List.map Symbol.value <$> g.expandFlat c limit levels name =
      Tree.leaves <$> g.expandTree c limit levels parent name
  | 0, _, _ => rfl
  | levels + 1, parent, name => by
    have hsymbol : ∀ s : Symbol, (List.map Symbol.value <$>
        if s.terminal then pure [s] else g.expandFlat c limit levels s.value) =
          Tree.leaves <$> g.expandSymbol c limit levels name s := by
      intro s
      unfold expandSymbol
      split
      · rfl
      · exact words_expandFlat limit levels (some name) s.value
    rw [expandFlat, expandTree_succ, map_bind, map_bind]
    refine congrArg _ (funext fun r => ?_)
    calc List.map Symbol.value <$> (do
          let parts ← r.rhs.mapM fun s =>
            if s.terminal then pure [s] else g.expandFlat c limit levels s.value
          pure parts.flatten)
        = List.flatten <$> List.map (List.map Symbol.value) <$> r.rhs.mapM fun s =>
            if s.terminal then pure [s] else g.expandFlat c limit levels s.value := by
          simp [List.map_flatten]
      _ = List.flatten <$> List.map Tree.leaves <$>
            r.rhs.mapM (g.expandSymbol c limit levels name) := by
          rw [Picking.map_mapM, Picking.map_mapM, funext hsymbol]
      _ = Tree.leaves <$> (do
            let children ← r.rhs.mapM (g.expandSymbol c limit levels name)
            pure (Tree.node name parent false children)) := by
          simp [Tree.leaves_nonterminal]

theorem generate_eq_leaves (limit : Nat) :
    g.generate c limit = Tree.leaves <$> g.deriveTree c limit := by
  rw [generate, bind_pure_comp]
  exact g.words_expandFlat c limit limit none g.start

/-- From one state, words and tree succeed together, and then the words are the leaves of the tree;
or they fail together for the same reason. Either way they leave the same state. -/
theorem generate_agrees (limit : Nat) (s : σ) :
    (∃ t s', (g.deriveTree c limit).outcome s = (.ok t, s') ∧
      (g.generate c limit).outcome s = (.ok t.leaves, s')) ∨
    (∃ e s', (g.deriveTree c limit).outcome s = (.error e, s') ∧
      (g.generate c limit).outcome s = (.error e, s')) := by
  rw [generate_eq_leaves, Picking.outcome_map]
  rcases (g.deriveTree c limit).outcome s with ⟨e | t, s'⟩
  · exact .inr ⟨e, s', rfl, rfl⟩
  · exact .inl ⟨t, s', rfl, rfl⟩

end Grammar

end GrammarInduction
