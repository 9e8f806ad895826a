import GrammarInduction.Derivation.Json
import GrammarInduction.Proofs.Derivation.Tree
import GrammarInduction.Proofs.Json.Fields

/-!
# What the document of a tree tells

The document of a tree tells everything but which of its nodes are terminal
(`Tree.document_eq_iff`), in any format that tells values apart. In a derived tree a node with children is no terminal, so the mark is lost
only where a node has none: it is a terminal, or a non-terminal that was expanded to nothing.

It can be told if alternatives of one name differ in more than such symbols (`Grammar.Legible`,
`Grammar.eq_of_unmarked`). If some do not, two trees are derived that differ and have one document
(`Grammar.exists_blurred_list`), as long as non-terminals derive anything (`Grammar.Productive`).
-/

namespace GrammarInduction

open Json

namespace Tree

/-! ## Terminal marks -/

mutual

/-- The tree with every node taken for a non-terminal. -/
def unmarked : Tree → Tree
  | node name parent _ children => node name parent false (unmarkedOf children)

def unmarkedOf : List Tree → List Tree
  | [] => []
  | t :: ts => unmarked t :: unmarkedOf ts

end

theorem unmarkedOf_eq_map : ∀ ts : List Tree, unmarkedOf ts = ts.map unmarked
  | [] => rfl
  | t :: ts => by rw [unmarkedOf, unmarkedOf_eq_map ts, List.map_cons]

/-! ## Documents -/

/-- A parent as it is written. -/
def parentJson (parent : Option String) : Json := (parent.map ofString).getD .null

theorem parentJson_inj {p q : Option String} : parentJson p = parentJson q ↔ p = q := by
  cases p with
  | none => cases q <;> simp [parentJson, ofString]
  | some p =>
    cases q with
    | none => simp [parentJson, ofString]
    | some q => simp [parentJson, ofString_inj]

/-- The member for the children, if there are any. -/
def childrenFields (ts : List Tree) : List (String × Json) :=
  if ts.isEmpty then [] else [("children", .array (listToJson ts))]

theorem childrenFields_inj {ts us : List Tree} :
    childrenFields ts = childrenFields us ↔ listToJson ts = listToJson us := by
  cases ts <;> cases us <;> simp [childrenFields, listToJson]

theorem toJson_node (name : String) (parent : Option String) (terminal : Bool)
    (children : List Tree) : (node name parent terminal children).toJson = ofFields
      (("name", ofString name) :: ("parent", parentJson parent) :: childrenFields children) := rfl

theorem written_parentJson : ∀ parent : Option String, Written (parentJson parent)
  | none => .null
  | some p => .string p

mutual

theorem written : ∀ t : Tree, Written t.toJson
  | node name parent terminal children => by
    rw [toJson_node]
    refine .fields (List.forall_mem_cons.2 ⟨.string name,
      List.forall_mem_cons.2 ⟨written_parentJson parent, fun f hf => ?_⟩⟩)
    unfold childrenFields at hf
    split at hf
    · cases hf
    · cases List.mem_singleton.1 hf
      exact .array (written_list children)

theorem written_list : ∀ ts : List Tree, ∀ v ∈ listToJson ts, Written v
  | [], _, hv => by cases hv
  | t :: ts, v, hv => by
    rcases List.mem_cons.1 hv with rfl | hv
    · exact t.written
    · exact written_list ts v hv

end

mutual

theorem toJson_eq_iff : ∀ {t u : Tree}, t.toJson = u.toJson ↔ t.unmarked = u.unmarked
  | node n p m ts, node n' p' m' us => by
    have hname : ("name", ofString n) = ("name", ofString n') ↔ n = n' := by simp [ofString_inj]
    have hparent : ("parent", parentJson p) = ("parent", parentJson p') ↔ p = p' := by
      simp [parentJson_inj]
    rw [toJson_node, toJson_node, ofFields_inj, List.cons.injEq, List.cons.injEq, hname, hparent,
      childrenFields_inj, listToJson_eq_iff, unmarked, unmarked, node.injEq]
    simp only [true_and]

theorem listToJson_eq_iff : ∀ {ts us : List Tree},
    listToJson ts = listToJson us ↔ unmarkedOf ts = unmarkedOf us
  | [], [] => by simp [listToJson, unmarkedOf]
  | [], _ :: _ => by simp [listToJson, unmarkedOf]
  | _ :: _, [] => by simp [listToJson, unmarkedOf]
  | t :: ts, u :: us => by
    rw [listToJson, listToJson, unmarkedOf, unmarkedOf, List.cons.injEq, List.cons.injEq,
      toJson_eq_iff, listToJson_eq_iff]

end

/-- The document of a tree tells everything but which nodes are terminal. -/
theorem document_eq_iff {F : Format} (hF : F.Injective) {t u : Tree} :
    t.document F = u.document F ↔ t.unmarked = u.unmarked := by
  rw [← toJson_eq_iff]
  exact ⟨hF t.written u.written, congrArg F.print⟩

/-! ## Trees whose nodes fit -/

/-- Every node fits the rules. -/
def Sound (rules : List Rule) (t : Tree) : Prop := ∀ p ∈ t.nodesAt 1, p.2.Fits rules

/-- What holds of all nodes does so wherever the root lies. -/
theorem forall_nodesAt_congr {P : Tree → Prop} : ∀ {t : Tree} (d d' : Nat),
    (∀ p ∈ t.nodesAt d, P p.2) → ∀ p ∈ t.nodesAt d', P p.2
  | node _ _ _ children, d, d', h => by
    obtain ⟨hroot, hc⟩ := forall_nodesAt.1 h
    refine forall_nodesAt.2 ⟨hroot, fun u (hu : u ∈ children) => ?_⟩
    exact forall_nodesAt_congr (d + 1) (d' + 1) (hc u hu)

section
variable {rules : List Rule} {t u : Tree}

theorem sound_iff : t.Sound rules ↔ t.Fits rules ∧ ∀ u ∈ t.children, u.Sound rules := by
  rw [Sound, forall_nodesAt]
  exact and_congr_right' ⟨fun h u hu => forall_nodesAt_congr 2 1 (h u hu),
    fun h u hu => forall_nodesAt_congr 1 2 (h u hu)⟩

/-- A rule without symbols for the name. -/
def Vanishes (rules : List Rule) (name : String) : Prop := ∃ e ∈ rules, e.lhs = name ∧ e.rhs = []

instance (rules : List Rule) (name : String) : Decidable (Vanishes rules name) :=
  inferInstanceAs (Decidable (∃ e ∈ rules, _))

theorem sound_childless {name : String} {parent : Option String} {terminal : Bool} :
    (node name parent terminal []).Sound rules ↔ (terminal = false → Vanishes rules name) := by
  rw [sound_iff]
  constructor
  · rintro ⟨h, -⟩ ht
    obtain ⟨e, he, hl, hs⟩ := h.spells ht
    exact ⟨e, he, hl, List.map_eq_nil_iff.1 hs.symm⟩
  · intro h
    refine ⟨⟨fun _ => rfl, nofun, fun ht => ?_⟩, nofun⟩
    obtain ⟨e, he, hl, hr⟩ := h ht
    exact ⟨e, he, hl, by rw [Rule.shapes, hr]; rfl⟩

/-! ## Alternatives that read the same -/

/-- Symbols that may have one document: they have one value, and one kind too unless the name may
vanish. -/
def Blurs (rules : List Rule) (a b : String × Bool) : Prop :=
  a.1 = b.1 ∧ (a.2 = b.2 ∨ Vanishes rules a.1)

instance (rules : List Rule) (a b : String × Bool) : Decidable (Blurs rules a b) :=
  inferInstanceAs (Decidable (_ ∧ _))

theorem blurs_of_unmarked (ht : t.Sound rules) (hu : u.Sound rules)
    (h : t.unmarked = u.unmarked) : Blurs rules t.shape u.shape := by
  cases t with
  | node n p m ts =>
    cases u with
    | node n' p' m' us =>
      rw [unmarked, unmarked, node.injEq, unmarkedOf_eq_map, unmarkedOf_eq_map] at h
      obtain ⟨rfl, rfl, -, h⟩ := h
      refine ⟨rfl, ?_⟩
      cases m with
      | true =>
        obtain rfl : ts = [] := (sound_iff.1 ht).1.leaf rfl
        obtain rfl : us = [] := List.map_eq_nil_iff.1 h.symm
        cases m' with
        | true => exact .inl rfl
        | false => exact .inr (sound_childless.1 hu rfl)
      | false =>
        cases m' with
        | false => exact .inl rfl
        | true =>
          obtain rfl : us = [] := (sound_iff.1 hu).1.leaf rfl
          obtain rfl : ts = [] := List.map_eq_nil_iff.1 h
          exact .inr (sound_childless.1 ht rfl)

theorem forall₂_blurs : ∀ {ts us : List Tree}, (∀ t ∈ ts, t.Sound rules) →
    (∀ u ∈ us, u.Sound rules) → unmarkedOf ts = unmarkedOf us →
      List.Forall₂ (Blurs rules) (ts.map shape) (us.map shape)
  | [], [], _, _, _ => .nil
  | t :: ts, u :: us, ht, hu, h => by
    obtain ⟨ht, hts⟩ := List.forall_mem_cons.1 ht
    obtain ⟨hu, hus⟩ := List.forall_mem_cons.1 hu
    obtain ⟨h, hs⟩ := List.cons.inj h
    exact .cons (blurs_of_unmarked ht hu h) (forall₂_blurs hts hus hs)

end

end Tree

namespace Grammar

open GrammarInduction.Tree

/-- Alternatives of one name that may have one document have their symbols in common. -/
def Legible (rules : List Rule) : Prop := ∀ r ∈ rules, ∀ q ∈ rules, r.lhs = q.lhs →
  List.Forall₂ (Blurs rules) r.shapes q.shapes → r.shapes = q.shapes

instance (rules : List Rule) : Decidable (Legible rules) :=
  inferInstanceAs (Decidable (∀ r ∈ rules, ∀ q ∈ rules, _ → _ → _))

section
variable {rules : List Rule}

mutual

/-- Where alternatives can be told apart, so can trees. -/
theorem eq_of_unmarked (hl : Legible rules) : ∀ {t u : Tree}, t.Sound rules → u.Sound rules →
    t.terminal = u.terminal → t.unmarked = u.unmarked → t = u
  | .node n p m ts, .node n' p' m' us, ht, hu, hm, h => by
    obtain ⟨ft, hts⟩ := sound_iff.1 ht
    obtain ⟨fu, hus⟩ := sound_iff.1 hu
    obtain rfl : m = m' := hm
    rw [unmarked, unmarked, node.injEq] at h
    obtain ⟨rfl, rfl, -, h⟩ := h
    have hshapes : ts.map shape = us.map shape := by
      cases m with
      | true => rw [show ts = [] from ft.leaf rfl, show us = [] from fu.leaf rfl]
      | false =>
        obtain ⟨r, hr, hrl, hrs⟩ := ft.spells rfl
        obtain ⟨q, hq, hql, hqs⟩ := fu.spells rfl
        have hblurs := forall₂_blurs hts hus h
        rw [hrs, hqs] at hblurs
        exact hrs.trans ((hl r hr q hq (hrl.trans hql.symm) hblurs).trans hqs.symm)
    exact congrArg (node n p m) (eq_of_unmarkedOf hl hts hus hshapes h)

theorem eq_of_unmarkedOf (hl : Legible rules) : ∀ {ts us : List Tree},
    (∀ t ∈ ts, t.Sound rules) → (∀ u ∈ us, u.Sound rules) → ts.map shape = us.map shape →
      unmarkedOf ts = unmarkedOf us → ts = us
  | [], [], _, _, _, _ => rfl
  | t :: ts, u :: us, ht, hu, hs, h => by
    obtain ⟨ht, hts⟩ := List.forall_mem_cons.1 ht
    obtain ⟨hu, hus⟩ := List.forall_mem_cons.1 hu
    obtain ⟨hs, hss⟩ := List.cons.inj hs
    obtain ⟨h, hs'⟩ := List.cons.inj h
    rw [eq_of_unmarked hl ht hu (congrArg Prod.snd hs) h, eq_of_unmarkedOf hl hts hus hss hs']

end

/-! ## Trees that cannot be told apart -/

/-- Symbols that may have one document stand for trees that have it. -/
theorem exists_blurred {a b : String × Bool} (hab : Blurs rules a b) (parent : Option String)
    (ha : a.2 = false → ∃ t : Tree, t.shape = a ∧ t.Sound rules) :
    ∃ t u : Tree, t.shape = a ∧ u.shape = b ∧ t.unmarked = u.unmarked ∧
      (t.parent = parent ∧ t.Sound rules) ∧ u.parent = parent ∧ u.Sound rules := by
  obtain ⟨v, m⟩ := a
  obtain ⟨v', m'⟩ := b
  obtain ⟨rfl, hm | hv⟩ := hab
  · obtain rfl : m = m' := hm
    cases m with
    | true =>
      have hleaf : (node v parent true []).Sound rules := sound_childless.2 nofun
      exact ⟨_, _, rfl, rfl, rfl, ⟨rfl, hleaf⟩, rfl, hleaf⟩
    | false =>
      obtain ⟨⟨n, p, m, ts⟩, hs, ht⟩ := ha rfl
      obtain ⟨rfl, rfl⟩ := Prod.mk.inj hs
      -- the same tree below the given parent
      have hnode : (node n parent false ts).Sound rules :=
        sound_iff.2 ((sound_iff.1 ht).imp_left fun h => ⟨h.leaf, h.parents, h.spells⟩)
      exact ⟨node n parent false ts, node n parent false ts, rfl, rfl, rfl, ⟨rfl, hnode⟩, rfl,
        hnode⟩
  · exact ⟨node v parent m [], node v parent m' [], rfl, rfl, rfl,
      ⟨rfl, sound_childless.2 fun _ => hv⟩, rfl, sound_childless.2 fun _ => hv⟩

theorem exists_blurred_list {as bs : List (String × Bool)} (hab : List.Forall₂ (Blurs rules) as bs)
    (parent : Option String)
    (ha : ∀ a ∈ as, a.2 = false → ∃ t : Tree, t.shape = a ∧ t.Sound rules) :
    ∃ ts us : List Tree, ts.map shape = as ∧ us.map shape = bs ∧ unmarkedOf ts = unmarkedOf us ∧
      (∀ t ∈ ts, t.parent = parent ∧ t.Sound rules) ∧
        ∀ u ∈ us, u.parent = parent ∧ u.Sound rules := by
  induction hab with
  | nil => exact ⟨[], [], rfl, rfl, rfl, nofun, nofun⟩
  | cons hab _ ih =>
    obtain ⟨ha, has⟩ := List.forall_mem_cons.1 ha
    obtain ⟨t, u, rfl, rfl, h, ht, hu⟩ := exists_blurred hab parent ha
    obtain ⟨ts, us, rfl, rfl, hs, hts, hus⟩ := ih has
    exact ⟨t :: ts, u :: us, rfl, rfl, by rw [unmarkedOf, unmarkedOf, h, hs],
      List.forall_mem_cons.2 ⟨ht, hts⟩, List.forall_mem_cons.2 ⟨hu, hus⟩⟩

/-- The expansion of a name by one of its rules. -/
theorem isDerivation_root {supply : Supply} {r : Rule} (hr : r ∈ rules)
    {ts : List Tree} (hs : ts.map shape = r.shapes)
    (hts : ∀ t ∈ ts, t.parent = some r.lhs ∧ t.Sound rules) :
    (node r.lhs none false ts).IsDerivation ⟨r.lhs, rules, supply⟩ where
  name := rfl
  nonterminal := rfl
  parent := rfl
  nodes := sound_iff.2 ⟨⟨nofun, fun t ht => (hts t ht).1, fun _ => ⟨r, hr, rfl, hs⟩⟩,
    fun t ht => (hts t ht).2⟩

end

/-! ## Trees that are derived -/

/-- The tree is derived for some choices within some limit. -/
def Yields (g : Grammar) (t : Tree) : Prop :=
  ∃ (σ : Type) (c : Chooser σ) (limit : Nat) (s s' : σ),
    (g.deriveTree c limit).outcome s = (.ok t, s')

/-- A chooser that takes its picks from a list. -/
def listedPicks : Chooser (List Nat) where
  pick := fun n picks => (⟨picks.headD 0 % (n + 1), Nat.mod_lt _ (Nat.succ_pos n)⟩, picks.tail)

theorem covers_listedPicks (most : Nat) :
    listedPicks.Covers (fun picks picks' => picks = picks') most where
  source := fun picks => ⟨picks, rfl⟩
  draw := by
    intro n _ i
    refine ⟨i, fun _ picks h => ⟨picks, ?_, rfl⟩⟩
    rw [h]
    exact Prod.ext (Fin.ext (Nat.mod_eq_of_lt i.isLt)) rfl

theorem lt_of_mem_nodesAt : ∀ {t : Tree} {d : Nat}, ∀ p ∈ t.nodesAt d, p.1 < d + t.depth
  | .node _ _ _ children, d => by
    have hdepth := depthOf_le.1 (Nat.le_refl (depthOf children))
    refine forall_nodesAt.2 ⟨by rw [depth]; omega, fun u (hu : u ∈ children) p hp => ?_⟩
    have hlt := lt_of_mem_nodesAt p hp
    have hle := hdepth u hu
    rw [depth]
    omega

/-- The trees that are derived are the derivations. -/
theorem yields_iff {g : Grammar} {t : Tree} : g.Yields t ↔ t.IsDerivation g := by
  constructor
  · rintro ⟨σ, c, limit, s, s', h⟩
    exact (grows_start_iff.1 (grows_of_expandTree (Nat.add_comm 1 limit) h)).1
  · intro h
    have hw : t.Within t.depth := fun p hp _ => by
      have hlt := lt_of_mem_nodesAt p hp
      omega
    obtain ⟨picks, hpicks⟩ := gives_expandTree (covers_listedPicks g.rules.length)
      (Nat.add_comm 1 t.depth) (grows_start_iff.2 ⟨h, hw⟩)
    obtain ⟨s', hs', -⟩ := hpicks picks [] (List.append_nil picks).symm
    exact ⟨_, _, _, picks, s', hs'⟩

/-- Every non-terminal of a rule derives a tree. -/
def Productive (g : Grammar) : Prop := ∀ r ∈ g.rules, ∀ x ∈ r.rhs, x.terminal = false →
  ∃ t, ({ g with start := x.value } : Grammar).Yields t

/-- The document of a tree tells everything but its terminal marks, and those of a derived tree too
where alternatives can be told apart. Where they cannot, and non-terminals derive anything at all,
two trees are derived that differ and have one document. -/
theorem document_tells {F : Format} (hF : F.Injective) (g : Grammar) :
    (∀ t u : Tree, t.document F = u.document F ↔ t.unmarked = u.unmarked) ∧
    (Legible g.rules → ∀ t u : Tree, g.Yields t → g.Yields u →
      t.document F = u.document F → t = u) ∧
    (g.Productive → ¬ Legible g.rules → ∃ (start : String) (t u : Tree),
      ({ g with start } : Grammar).Yields t ∧ ({ g with start } : Grammar).Yields u ∧
        t.document F = u.document F ∧ t ≠ u) := by
  refine ⟨fun t u => document_eq_iff hF, fun hl t u ht hu h => ?_, fun hp hl => ?_⟩
  · have ht := yields_iff.1 ht
    have hu := yields_iff.1 hu
    exact eq_of_unmarked hl ht.nodes hu.nodes (ht.nonterminal.trans hu.nonterminal.symm)
      ((document_eq_iff hF).1 h)
  · simp only [Legible, not_forall] at hl
    obtain ⟨r, hr, q, hq, hlhs, hblurs, hne⟩ := hl
    have hproductive : ∀ a ∈ r.shapes, a.2 = false → ∃ t : Tree, t.shape = a ∧ t.Sound g.rules := by
      intro a ha hterminal
      obtain ⟨x, hx, rfl⟩ := List.mem_map.1 ha
      obtain ⟨t, ht⟩ := hp r hr x hx hterminal
      have ht := yields_iff.1 ht
      exact ⟨t, Prod.ext ht.name (ht.nonterminal.trans hterminal.symm), ht.nodes⟩
    obtain ⟨ts, us, hts, hus, h, hsound, hsound'⟩ :=
      exists_blurred_list hblurs (some r.lhs) hproductive
    refine ⟨r.lhs, .node r.lhs none false ts, .node r.lhs none false us,
      yields_iff.2 (isDerivation_root hr hts hsound), ?_, ?_, ?_⟩
    · rw [hlhs] at hsound' ⊢
      exact yields_iff.2 (isDerivation_root hq hus hsound')
    · rw [document_eq_iff hF, unmarked, unmarked, h]
    · intro he
      obtain rfl := (node.inj he).2.2.2
      exact hne (hts.symm.trans hus)

/-- Two alternatives with one value, a terminal and a non-terminal that is expanded to nothing. -/
def blurred : Grammar :=
  ofRules "S" [⟨"S", [⟨"a", true, 0⟩], 0⟩, ⟨"S", [⟨"a", false, 1⟩], 1⟩, ⟨"a", [], 2⟩]

/-- The same alternatives, but the non-terminal is never expanded to nothing. -/
def clear : Grammar :=
  ofRules "S" [⟨"S", [⟨"a", true, 0⟩], 0⟩, ⟨"S", [⟨"a", false, 1⟩], 1⟩, ⟨"a", [⟨"a", true, 2⟩], 2⟩]

/-- The derivation of `a` by way of the non-terminal. -/
def clearTree : Tree :=
  .node "S" none false [.node "a" (some "S") false [.node "a" (some "a") true []]]

theorem document_tells_clear :
    Format.indented.Injective ∧ (Legible clear.rules ∧ ∃ t u : Tree,
      (∃ s, (clear.deriveTree Draws.chooser 256).outcome ⟨.listed [0x8000000000000000], 0⟩ =
        (.ok t, s)) ∧
      (∃ s, (clear.deriveTree listedPicks 2).outcome [1] = (.ok u, s)) ∧
      t.document .indented = u.document .indented ∧ t = u) ∧
    blurred.Productive ∧ ¬ Legible blurred.rules ∧ ∃ (start : String) (t u : Tree),
      ({ blurred with start } : Grammar).Yields t ∧ ({ blurred with start } : Grammar).Yields u ∧
        t.document .indented = u.document .indented ∧ t ≠ u := by
  have hformat : Format.indented.Injective := injective_indented
  have hlegible : Legible clear.rules := by decide
  have hblurred : ¬ Legible blurred.rules := by decide
  have hproductive : blurred.Productive := by
    intro r hr x hx hterminal
    have hname : x.value = "a" := by
      revert r x
      decide
    rw [hname]
    exact ⟨.node "a" none false [], List Nat, listedPicks, 1, [], [], rfl⟩
  have ht : (clear.deriveTree Draws.chooser 256).outcome ⟨.listed [0x8000000000000000], 0⟩ =
      (.ok clearTree, ⟨.listed [], 2⟩) := rfl
  have hu : (clear.deriveTree listedPicks 2).outcome [1] = (.ok clearTree, []) := rfl
  exact ⟨hformat, ⟨hlegible, clearTree, clearTree, ⟨_, ht⟩, ⟨_, hu⟩, rfl,
      (document_tells hformat clear).2.1 hlegible _ _ ⟨_, _, _, _, _, ht⟩ ⟨_, _, _, _, _, hu⟩ rfl⟩,
    hproductive, hblurred, (document_tells hformat blurred).2.2 hproductive hblurred⟩

/-- A word and no word at all, derived from one grammar and written as one document. -/
theorem document_blurred :
    blurred.Yields (.node "S" none false [.node "a" (some "S") true []]) ∧
    blurred.Yields (.node "S" none false [.node "a" (some "S") false []]) ∧
    (∀ F : Format, (Tree.node "S" none false [.node "a" (some "S") true []]).document F =
      (Tree.node "S" none false [.node "a" (some "S") false []]).document F) ∧
    (Tree.node "S" none false [.node "a" (some "S") true []]).leaves = ["a"] ∧
    (Tree.node "S" none false [.node "a" (some "S") false []]).leaves = [] :=
  ⟨⟨Draws, Draws.chooser, 256, ⟨.listed [0], 0⟩, ⟨.listed [], 1⟩, rfl⟩,
    ⟨Draws, Draws.chooser, 256, ⟨.listed [0x8000000000000000, 0], 0⟩, ⟨.listed [], 2⟩, rfl⟩,
    fun _ => rfl, rfl, rfl⟩

end Grammar

end GrammarInduction
