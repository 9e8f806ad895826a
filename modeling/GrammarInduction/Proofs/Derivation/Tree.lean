import GrammarInduction.Derivation.Draws
import GrammarInduction.Proofs.Derivation.Outcome
import GrammarInduction.Proofs.Grammar.Language
import GrammarInduction.Proofs.Lists

/-!
# Derivation trees of a grammar

A tree is a derivation of a grammar if each of its nodes fits the rules (`Tree.Fits`) and its root
is the start name (`Tree.IsDerivation`). The trees that are derived within a limit are the
derivations whose non-terminals lie no deeper than the limit (`Grammar.deriveTree_derivations`).

That all of them are derived rests on the chooser: it has to pick each index for some draw
(`Chooser.Covers`), as the one for 64-bit draws does (`Draws.covers`). The draws for a tree are
those for its root and then those for its children, from left to right.
-/

namespace GrammarInduction

namespace Tree

def name : Tree → String
  | node name _ _ _ => name

def parent : Tree → Option String
  | node _ parent _ _ => parent

def terminal : Tree → Bool
  | node _ _ terminal _ => terminal

def children : Tree → List Tree
  | node _ _ _ children => children

/-- What a node shows of the symbol that it stands for. -/
def shape (t : Tree) : String × Bool := (t.name, t.terminal)

mutual

/-- The nodes of a tree with their depths, where the root lies at depth `d`. -/
def nodesAt (d : Nat) : Tree → List (Nat × Tree)
  | node name parent terminal children =>
    (d, node name parent terminal children) :: nodesOfAt (d + 1) children

/-- The nodes of several trees with roots at depth `d`. -/
def nodesOfAt (d : Nat) : List Tree → List (Nat × Tree)
  | [] => []
  | t :: ts => nodesAt d t ++ nodesOfAt d ts

end

/-- A terminal node has no children. The children of any other node name it as their parent, and
spell the right-hand side of one of its rules. -/
structure Fits (rules : List Rule) (t : Tree) : Prop where
  leaf : t.terminal = true → t.children = []
  parents : ∀ u ∈ t.children, u.parent = some t.name
  spells : t.terminal = false → ∃ r ∈ rules, r.lhs = t.name ∧ t.children.map shape = r.shapes

/-- The root is the start name, and every node fits. -/
structure IsDerivation (g : Grammar) (t : Tree) : Prop where
  name : t.name = g.start
  nonterminal : t.terminal = false
  parent : t.parent = none
  nodes : ∀ p ∈ t.nodesAt 1, p.2.Fits g.rules

/-- The non-terminals lie at depths up to `limit`; the root lies at depth 1. -/
def Within (limit : Nat) (t : Tree) : Prop := ∀ p ∈ t.nodesAt 1, p.2.terminal = false → p.1 ≤ limit

/-! ## Nodes and depths -/

theorem mem_nodesOfAt {d : Nat} {p : Nat × Tree} {ts : List Tree} :
    p ∈ nodesOfAt d ts ↔ ∃ t ∈ ts, p ∈ t.nodesAt d := by
  induction ts with
  | nil => simp [nodesOfAt]
  | cons t ts ih => simp [nodesOfAt, ih]

theorem forall_nodesAt {d : Nat} {P : Nat × Tree → Prop} {t : Tree} :
    (∀ p ∈ t.nodesAt d, P p) ↔ P (d, t) ∧ ∀ u ∈ t.children, ∀ p ∈ u.nodesAt (d + 1), P p := by
  cases t with
  | node name parent terminal children =>
    simp only [nodesAt, List.forall_mem_cons, mem_nodesOfAt, Tree.children]
    exact and_congr_right' ⟨fun h u hu p hp => h p ⟨u, hu, hp⟩, fun h p ⟨u, hu, hp⟩ => h u hu p hp⟩

theorem depthOf_le {n : Nat} {ts : List Tree} : depthOf ts ≤ n ↔ ∀ t ∈ ts, t.depth ≤ n := by
  induction ts with
  | nil => simp [depthOf]
  | cons t ts ih => rw [depthOf, Nat.max_le, ih, List.forall_mem_cons]

theorem map_shape_eq {ts : List Tree} {xs : List Symbol} :
    ts.map shape = xs.map Symbol.shape ↔ List.Forall₂ (fun t x => t.shape = x.shape) ts xs := by
  rw [← List.forall₂_eq_eq_eq, List.forall₂_map_left_iff, List.forall₂_map_right_iff]

/-- A tree at depth `d` of a derivation whose non-terminals lie at depths up to `limit`: it stands
for a symbol of the given shape below `parent`. -/
structure Grows (rules : List Rule) (limit d : Nat) (parent : Option String)
    (shape : String × Bool) (t : Tree) : Prop where
  shape : t.shape = shape
  parent : t.parent = parent
  nodes : ∀ p ∈ t.nodesAt d, p.2.Fits rules ∧ (p.2.terminal = false → p.1 ≤ limit)

section
variable {rules : List Rule} {limit d : Nat} {parent : Option String} {t : Tree}

theorem grows_start_iff {g : Grammar} :
    t.Grows g.rules limit 1 none (g.start, false) ↔ t.IsDerivation g ∧ t.Within limit := by
  constructor
  · rintro ⟨hs, hp, hn⟩
    exact ⟨⟨congrArg Prod.fst hs, congrArg Prod.snd hs, hp, fun p h => (hn p h).1⟩,
      fun p h => (hn p h).2⟩
  · rintro ⟨⟨hs, ht, hp, hn⟩, hw⟩
    exact ⟨Prod.ext hs ht, hp, fun p h => ⟨hn p h, hw p h⟩⟩

theorem grows_terminal_iff {v : String} :
    t.Grows rules limit d parent (v, true) ↔ t = node v parent true [] := by
  constructor
  · rintro ⟨hs, hp, hn⟩
    obtain ⟨⟨⟨leaf, -, -⟩, -⟩, -⟩ := forall_nodesAt.1 hn
    cases t with
    | node name parent terminal children =>
      cases hs
      cases hp
      exact congrArg _ (leaf rfl)
  · rintro rfl
    exact ⟨rfl, rfl, forall_nodesAt.2 ⟨⟨⟨fun _ => rfl, nofun, nofun⟩, nofun⟩, nofun⟩⟩

/-- A non-terminal grows a tree for each symbol of one of its rules. -/
theorem grows_nonterminal_iff {name : String} :
    t.Grows rules limit d parent (name, false) ↔ d ≤ limit ∧ ∃ r ∈ rules, r.lhs = name ∧
      ∃ children, t = node name parent false children ∧
        List.Forall₂ (fun x u => u.Grows rules limit (d + 1) (some name) x.shape)
          r.rhs children := by
  constructor
  · rintro ⟨hs, hp, hn⟩
    obtain ⟨⟨⟨-, parents, spells⟩, hd⟩, hc⟩ := forall_nodesAt.1 hn
    cases t with
    | node name parent terminal children =>
      cases hs
      cases hp
      obtain ⟨r, hr, hl, hsh⟩ := spells rfl
      refine ⟨hd rfl, r, hr, hl, children, rfl, ?_⟩
      have hall := (List.forall₂_and_left _ _).2 ⟨fun u hu => And.intro (parents u hu) (hc u hu),
        map_shape_eq.1 hsh⟩
      exact hall.flip.imp fun x u ⟨⟨hp, hn⟩, hs⟩ => ⟨hs, hp, hn⟩
  · rintro ⟨hd, r, hr, hl, children, rfl, hall⟩
    have hmem : ∀ u ∈ children, ∃ x ∈ r.rhs, u.Grows rules limit (d + 1) (some name) x.shape :=
      fun u hu => exists_left_of_forall₂ hall hu
    refine ⟨rfl, rfl, forall_nodesAt.2 ⟨⟨⟨nofun, fun u hu => ?_, fun _ => ?_⟩, fun _ => hd⟩,
      fun u hu => ?_⟩⟩
    · obtain ⟨x, -, hx⟩ := hmem u hu
      exact hx.parent
    · exact ⟨r, hr, hl, map_shape_eq.2 (hall.flip.imp fun u x h => h.shape)⟩
    · obtain ⟨x, -, hx⟩ := hmem u hu
      exact hx.nodes

/-- A path runs over non-terminals and ends at a terminal below them at the latest. -/
theorem Grows.depth_le : ∀ {t : Tree} {d : Nat} {parent : Option String} {shape : String × Bool},
    t.Grows rules limit d parent shape → d ≤ limit + 1 → t.depth + d ≤ limit + 2
  | node v q true children, d, parent, shape, h, hd => by
    obtain rfl := h.shape
    cases grows_terminal_iff.1 h
    simp only [depth, depthOf]
    omega
  | node v q false children, d, parent, shape, h, hd => by
    obtain rfl := h.shape
    obtain ⟨hd, r, -, -, _, ht, hall⟩ := grows_nonterminal_iff.1 h
    cases ht
    have hc : depthOf children ≤ limit + 1 - d := depthOf_le.2 fun u hu => by
      obtain ⟨x, -, hx⟩ := exists_left_of_forall₂ hall hu
      have := hx.depth_le (by omega)
      omega
    rw [depth]
    omega

end

end Tree

/-! ## Draws -/

section
variable {σ δ α β : Type}

/-- The chooser works through draws: `ahead s xs` says that a source in state `s` goes on with the
draws `xs`. There is a source for any draws, and as long as there are at most `most` alternatives,
each index is picked for some draw. -/
structure Chooser.Covers (c : Chooser σ) (ahead : σ → List δ → Prop) (most : Nat) : Prop where
  source : ∀ xs, ∃ s, ahead s xs
  draw : ∀ n < most, ∀ i : Fin (n + 1), ∃ x, ∀ s xs, ahead s (x :: xs) →
    ∃ s', c.pick n s = (i, s') ∧ ahead s' xs

namespace Draws

/-- Every stretch of `n + 1` numbers holds a multiple of `n + 1`. -/
theorem exists_mul_eq {w n i : Nat} (hn : n < w) (hi : i ≤ n) :
    ∃ x < w, ∃ low ≤ n, x * (n + 1) = w * i + low := by
  have hmod := Nat.mod_lt (w * i + n) (Nat.add_one_pos n)
  have hdiv := Nat.div_add_mod' (w * i + n) (n + 1)
  refine ⟨(w * i + n) / (n + 1), ?_, n - (w * i + n) % (n + 1), Nat.sub_le _ _, by omega⟩
  rw [Nat.div_lt_iff_lt_mul (Nat.succ_pos n)]
  calc w * i + n ≤ w * n + n := Nat.add_le_add_right (Nat.mul_le_mul_left w hi) n
    _ < w * (n + 1) := by rw [Nat.mul_succ]; omega

/-- Each index is the upper half of an accepted draw. -/
theorem exists_accepts {n : Nat} (hn : n < Nat.pow 2 64) (i : Fin (n + 1)) :
    ∃ x, accepts n x = true ∧ index n x = i := by
  obtain ⟨x, hx, low, hlow, hmul⟩ := exists_mul_eq hn (Nat.le_of_lt_succ i.isLt)
  have hnat : (UInt64.ofNat x).toNat = x := UInt64.toNat_ofNat_of_lt hx
  refine ⟨UInt64.ofNat x, ?_, Fin.ext ?_⟩
  · have hbound : n + 1 ≤ (n + 1) * Nat.pow 2 (63 - (n + 1).log2) :=
      Nat.le_mul_of_pos_right _ (Nat.pow_pos (by decide))
    rw [accepts, decide_eq_true_eq, hnat, hmul, Nat.mul_add_mod, Nat.mod_eq_of_lt (by omega), bound]
    omega
  · show (UInt64.ofNat x).toNat * (n + 1) / Nat.pow 2 64 = i
    rw [hnat, hmul, Nat.mul_add_div (by decide), Nat.div_eq_of_lt (by omega), Nat.add_zero]

/-- Listed draws pick each of at most `2 ^ 64` alternatives. -/
theorem covers {most : Nat} (h : most ≤ Nat.pow 2 64) :
    chooser.Covers (fun d xs => d.source = .listed xs) most where
  source := fun xs => ⟨⟨.listed xs, 0⟩, rfl⟩
  draw := by
    intro n hn i
    obtain ⟨x, hacc, hi⟩ := exists_accepts (Nat.lt_of_lt_of_le hn h) i
    refine ⟨x, fun d xs hd => ⟨⟨.listed xs, d.taken + 1⟩, ?_, rfl⟩⟩
    obtain ⟨source, taken⟩ := d
    cases hd
    simp only [chooser, pick, DrawSource.patience, pickWithin, next, DrawSource.next, hacc, hi,
      if_true]

end Draws

namespace Picking

/-- The draws `xs` make the computation give `a`, whatever follows them. -/
def Gives (ahead : σ → List δ → Prop) (m : Picking σ α) (xs : List δ) (a : α) : Prop :=
  ∀ s rest, ahead s (xs ++ rest) → ∃ s', m.outcome s = (.ok a, s') ∧ ahead s' rest

variable {ahead : σ → List δ → Prop}

theorem gives_pure (a : α) : Gives ahead (pure a) [] a := fun s _ h => ⟨s, outcome_pure a s, h⟩

theorem Gives.bind {m : Picking σ α} {f : α → Picking σ β} {xs ys : List δ} {a : α} {b : β}
    (h : Gives ahead m xs a) (hf : Gives ahead (f a) ys b) :
    Gives ahead (m >>= f) (xs ++ ys) b := by
  intro s rest hs
  rw [List.append_assoc] at hs
  obtain ⟨s₁, ha, hs₁⟩ := h s _ hs
  obtain ⟨s', hb, hs'⟩ := hf s₁ rest hs₁
  exact ⟨s', (outcome_bind_ok ha).trans hb, hs'⟩

theorem gives_mapM {m : α → Picking σ β} {as : List α} {bs : List β}
    (h : List.Forall₂ (fun a b => ∃ xs, Gives ahead (m a) xs b) as bs) :
    ∃ xs, Gives ahead (as.mapM m) xs bs := by
  induction h with
  | nil =>
    rw [List.mapM_nil]
    exact ⟨[], gives_pure []⟩
  | cons hab _ ih =>
    obtain ⟨xs, hxs⟩ := hab
    obtain ⟨ys, hys⟩ := ih
    rw [List.mapM_cons]
    exact ⟨_, hxs.bind (hys.bind (gives_pure _))⟩

end Picking

/-! ## Trees that are derived -/

namespace Grammar

variable {g : Grammar} {c : Chooser σ} {limit : Nat}

/-- Where `levels` levels remain, the tree for a name grows down to the limit. -/
theorem grows_of_expandTree {m : Nat} : ∀ {levels d : Nat} {parent : Option String} {name : String}
    {s s' : σ} {t : Tree}, d + levels = limit + 1 →
    (g.expandTree c m levels parent name).outcome s = (.ok t, s') →
      t.Grows g.rules limit d parent (name, false)
  | 0, _, _, _, _, _, _, _, h => by cases h
  | levels + 1, d, parent, name, s, s', t, hd, h => by
    obtain ⟨r, hr, hl, children, rfl, hall⟩ := expandTree_eq_ok h
    refine Tree.grows_nonterminal_iff.2 ⟨by omega, r, hr, hl, children, rfl, hall.imp ?_⟩
    rintro ⟨v, terminal, id⟩ u ⟨s, s', hu⟩
    cases terminal with
    | true =>
      cases hu
      exact Tree.grows_terminal_iff.2 rfl
    | false => exact grows_of_expandTree (by omega) hu

/-- A rule of a name is picked for some draw. -/
theorem gives_choose {ahead : σ → List δ → Prop} (hc : c.Covers ahead g.rules.length) {r : Rule}
    (hr : r ∈ g.rules) : ∃ xs, Picking.Gives ahead (g.choose c r.lhs) xs r := by
  have hmem := mem_alternatives.2 ⟨hr, rfl⟩
  cases ha : g.alternatives r.lhs with
  | nil =>
    rw [ha] at hmem
    cases hmem
  | cons q rest =>
    rw [ha] at hmem
    obtain ⟨i, hi⟩ := List.get_of_mem hmem
    have hlen : rest.length < g.rules.length := by
      have := List.length_filter_le (fun p : Rule => p.lhs == r.lhs) g.rules
      rw [show g.rules.filter _ = q :: rest from ha] at this
      exact this
    obtain ⟨x, hx⟩ := hc.draw rest.length hlen i
    refine ⟨[x], fun s xs hs => ?_⟩
    obtain ⟨s', hpick, hs'⟩ := hx s xs hs
    refine ⟨s', ?_, hs'⟩
    rw [outcome_choose ha, hpick]
    exact Prod.ext (congrArg Except.ok hi) rfl

/-- A tree that grows down to the limit is expanded for some draws. -/
theorem gives_expandTree {m : Nat} {ahead : σ → List δ → Prop}
    (hc : c.Covers ahead g.rules.length) :
    ∀ {levels d : Nat} {parent : Option String} {name : String} {t : Tree}, d + levels = limit + 1 →
      t.Grows g.rules limit d parent (name, false) →
      ∃ xs, Picking.Gives ahead (g.expandTree c m levels parent name) xs t
  | 0, d, parent, name, t, hd, h => by
    have := (Tree.grows_nonterminal_iff.1 h).1
    omega
  | levels + 1, d, parent, _, t, hd, h => by
    obtain ⟨-, r, hr, rfl, children, rfl, hall⟩ := Tree.grows_nonterminal_iff.1 h
    obtain ⟨xs, hxs⟩ := gives_choose hc hr
    have hsymbols : List.Forall₂
        (fun x u => ∃ ys, Picking.Gives ahead (g.expandSymbol c m levels r.lhs x) ys u)
        r.rhs children := by
      refine hall.imp ?_
      rintro ⟨v, terminal, id⟩ u hu
      cases terminal with
      | true =>
        rw [Tree.grows_terminal_iff.1 hu]
        exact ⟨[], Picking.gives_pure _⟩
      | false => exact gives_expandTree hc (by omega) hu
    obtain ⟨ys, hys⟩ := Picking.gives_mapM hsymbols
    exact ⟨_, hxs.bind (hys.bind (Picking.gives_pure _))⟩

/-- Every tree that is derived is a derivation with its non-terminals at depths up to the limit; and
every such derivation is derived for some draws, if the chooser covers the rules. -/
theorem deriveTree_derivations (g : Grammar) (c : Chooser σ) (limit : Nat) :
    (∀ s s' t, (g.deriveTree c limit).outcome s = (.ok t, s') →
      t.IsDerivation g ∧ t.Within limit ∧ t.depth ≤ limit + 1) ∧
    ∀ {δ : Type} {ahead : σ → List δ → Prop}, c.Covers ahead g.rules.length →
      ∀ t : Tree, t.IsDerivation g → t.Within limit →
        ∃ draws, (∃ s, ahead s draws) ∧
          ∀ s, ahead s draws → ∃ s', (g.deriveTree c limit).outcome s = (.ok t, s') := by
  constructor
  · intro s s' t h
    have hg := grows_of_expandTree (Nat.add_comm 1 limit) h
    obtain ⟨hd, hw⟩ := Tree.grows_start_iff.1 hg
    have := hg.depth_le (by omega)
    exact ⟨hd, hw, by omega⟩
  · intro δ ahead hc t hd hw
    obtain ⟨draws, hdraws⟩ := gives_expandTree hc (Nat.add_comm 1 limit)
      (Tree.grows_start_iff.2 ⟨hd, hw⟩)
    refine ⟨draws, hc.source draws, fun s hs => ?_⟩
    obtain ⟨s', h, -⟩ := hdraws s [] (by rwa [List.append_nil])
    exact ⟨s', h⟩

/-- A name that refers to itself or vanishes. -/
def recursive : Grammar where
  start := "S"
  rules := [⟨"S", [⟨"a", true, 0⟩, ⟨"B", false, 1⟩], 0⟩, ⟨"B", [⟨"B", false, 2⟩, ⟨"b", true, 3⟩], 1⟩,
    ⟨"B", [], 2⟩]

/-- The derivation of `a b`. -/
def recursiveTree : Tree :=
  .node "S" none false [.node "a" (some "S") true [], .node "B" (some "S") false
    [.node "B" (some "B") false [], .node "b" (some "B") true []]]

theorem deriveTree_derivations_recursive :
    (recursive.deriveTree Draws.chooser 3).outcome ⟨.listed [0, 0, 0x8000000000000000], 0⟩ =
        (.ok recursiveTree, ⟨.listed [], 3⟩) ∧
      (recursiveTree.IsDerivation recursive ∧ recursiveTree.Within 3 ∧ recursiveTree.depth ≤ 3 + 1) ∧
      Draws.chooser.Covers (fun d xs => d.source = .listed xs) recursive.rules.length ∧
      ∃ draws, (∃ s : Draws, s.source = .listed draws) ∧ ∀ s : Draws, s.source = .listed draws →
        ∃ s', (recursive.deriveTree Draws.chooser 3).outcome s = (.ok recursiveTree, s') := by
  have hrun : (recursive.deriveTree Draws.chooser 3).outcome
      ⟨.listed [0, 0, 0x8000000000000000], 0⟩ = (.ok recursiveTree, ⟨.listed [], 3⟩) := by rfl
  have hcovers : Draws.chooser.Covers (fun d xs => d.source = .listed xs) recursive.rules.length :=
    Draws.covers (by decide)
  have htree := (deriveTree_derivations recursive Draws.chooser 3).1 _ _ _ hrun
  exact ⟨hrun, htree, hcovers,
    (deriveTree_derivations recursive Draws.chooser 3).2 hcovers _ htree.1 htree.2.1⟩

end Grammar

end

end GrammarInduction
