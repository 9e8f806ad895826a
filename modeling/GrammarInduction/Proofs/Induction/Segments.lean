import GrammarInduction.Induction.Promotion
import GrammarInduction.Proofs.Grammar.Language
import GrammarInduction.Proofs.Lists

/-!
# Cutting a right-hand side

A right-hand side is cut into segments that lie side by side (`flatMap_cut`), whose hits spell the
target (`hit_of_mem_segments`). `Rule.segments` takes the exemption of whole rules into account: a
rule with a hit is longer than the target or belongs to the start name, and any other rule than the
target as a whole is cut (`segments_eq_cut`). Without a hit, the target stands at most as the whole
of a rule (`whole_of_hits`).

Assembling segments puts one symbol in the place of each (`assemble_becomes`): a kept symbol stays,
a hit becomes a reference to a new rule with the shapes of the hit. The new rules take consecutive
names and ids, one for each hit (`assemble_names`, `assemble_ids`), and values only move
(`count_assemble`).
-/

namespace GrammarInduction

/-! ## Segments -/

namespace Segment

/-- The symbols that a segment covers. -/
def symbols : Segment → List Symbol
  | kept s => [s]
  | hit body => body

def isHit : Segment → Bool
  | kept _ => false
  | hit _ => true

/-- `y` may stand in the place of the segment where the rules `new` are present. -/
def Becomes (new : List Rule) : Segment → Symbol → Prop
  | kept x, y => y = x
  | hit body, y => y.terminal = false ∧
      ∃ q ∈ new, q.lhs = y.value ∧ q.shapes = body.map Symbol.shape

theorem Becomes.mono {new new' : List Rule} (h : ∀ q ∈ new, q ∈ new') {seg : Segment} {y : Symbol}
    (hb : seg.Becomes new y) : seg.Becomes new' y := by
  cases seg with
  | kept x => exact hb
  | hit body =>
    obtain ⟨ht, q, hq, hl⟩ := hb
    exact ⟨ht, q, h q hq, hl⟩

end Segment

/-- The number of hits. -/
def hits (segs : List Segment) : Nat := segs.countP Segment.isHit

@[simp] theorem hits_kept (x : Symbol) (segs : List Segment) :
    hits (.kept x :: segs) = hits segs := List.countP_cons_of_neg (by simp [Segment.isHit])

@[simp] theorem hits_hit (body : List Symbol) (segs : List Segment) :
    hits (.hit body :: segs) = hits segs + 1 := List.countP_cons_of_pos rfl

theorem hits_map_kept (xs : List Symbol) : hits (xs.map .kept) = 0 := by
  simp [hits, Segment.isHit]

theorem flatMap_map_kept (xs : List Symbol) :
    (xs.map Segment.kept).flatMap Segment.symbols = xs := by
  simp [List.flatMap_map, Segment.symbols]

/-- Without a hit the symbols are the kept ones. -/
theorem eq_map_kept {segs : List Segment} (h : hits segs = 0) :
    segs = (segs.flatMap Segment.symbols).map .kept := by
  induction segs with
  | nil => rfl
  | cons seg segs ih =>
    cases seg with
    | kept x =>
      rw [hits_kept] at h
      rw [List.flatMap_cons, Segment.symbols, List.singleton_append, List.map_cons, ← ih h]
    | hit body => simp at h

theorem length_flatMap_symbols {n : Nat} : ∀ {segs : List Segment},
    (∀ body, .hit body ∈ segs → body.length = n) →
    (segs.flatMap Segment.symbols).length + hits segs = segs.length + hits segs * n
  | [], _ => by simp [hits]
  | .kept x :: segs, h => by
    have ih := length_flatMap_symbols fun body hb => h body (.tail _ hb)
    rw [List.flatMap_cons, List.length_append, hits_kept, List.length_cons, Segment.symbols,
      List.length_singleton]
    omega
  | .hit body :: segs, h => by
    have ih := length_flatMap_symbols fun body hb => h body (.tail _ hb)
    have hb := h body List.mem_cons_self
    rw [List.flatMap_cons, List.length_append, hits_hit, List.length_cons, Segment.symbols, hb,
      Nat.add_mul, Nat.one_mul]
    omega

/-! ## Cutting -/

theorem flatMap_cutAfter (target : List String) (skip : Nat) (rhs : List Symbol) :
    (cutAfter target skip rhs).flatMap Segment.symbols = rhs.drop skip := by
  fun_induction cutAfter target skip rhs with
  | case1 => simp
  | case2 skip s rest ih => exact ih
  | case3 s rest front h ih =>
    obtain ⟨n, hn⟩ : ∃ n, target.length = n + 1 :=
      Nat.exists_eq_succ_of_ne_zero (by simpa using h.1)
    rw [List.flatMap_cons, ih, Segment.symbols]
    simp only [front, hn, Nat.add_sub_cancel, List.take_succ_cons, List.cons_append,
      List.take_append_drop, List.drop_zero]
  | case4 s rest front h ih => rw [List.flatMap_cons, ih]; rfl

theorem flatMap_cut (target : List String) (rhs : List Symbol) :
    (cut target rhs).flatMap Segment.symbols = rhs := flatMap_cutAfter target 0 rhs

theorem cutAfter_drop (target : List String) : ∀ (skip : Nat) (rhs : List Symbol),
    cutAfter target skip rhs = cut target (rhs.drop skip)
  | 0, _ => rfl
  | _ + 1, [] => rfl
  | skip + 1, _ :: rest => cutAfter_drop target skip rest

theorem cut_cons (target : List String) (s : Symbol) (rest : List Symbol) :
    cut target (s :: rest) =
      let front := (s :: rest).take target.length
      if target ≠ [] ∧ front.map Symbol.value = target then
        .hit front :: cut target (rest.drop (target.length - 1))
      else .kept s :: cut target rest := by
  rw [cut, cutAfter, cutAfter_drop]
  rfl

theorem hit_of_mem_cutAfter {target : List String} {skip : Nat} {rhs body : List Symbol}
    (h : .hit body ∈ cutAfter target skip rhs) : target ≠ [] ∧ body.map Symbol.value = target := by
  fun_induction cutAfter target skip rhs with
  | case1 => cases h
  | case2 skip s rest ih => exact ih h
  | case3 s rest front hf ih =>
    rcases List.mem_cons.1 h with h | h
    · rw [Segment.hit.inj h]; exact hf
    · exact ih h
  | case4 s rest front hf ih =>
    rcases List.mem_cons.1 h with h | h
    · cases h
    · exact ih h

/-- What is hit stands in the right-hand side. -/
theorem isInfix_of_hit {target : List String} {rhs body : List Symbol}
    (h : .hit body ∈ cut target rhs) : body <:+: rhs := by
  obtain ⟨pre, post, hcut⟩ := List.append_of_mem h
  rw [← flatMap_cut target rhs, hcut, List.flatMap_append, List.flatMap_cons]
  exact ⟨_, _, List.append_assoc ..⟩

/-- How a rule is cut for promotion. -/
def Rule.segments (start : String) (target : List String) (r : Rule) : List Segment :=
  if r.isCut start target then cut target r.rhs else r.rhs.map .kept

section
variable {start : String} {target : List String} {r : Rule}

theorem flatMap_segments : (r.segments start target).flatMap Segment.symbols = r.rhs := by
  unfold Rule.segments
  split
  · exact flatMap_cut target r.rhs
  · exact flatMap_map_kept r.rhs

/-- A hit spells the target, inside a longer rule or in a rule of the start name. -/
theorem hit_of_mem_segments {body : List Symbol} (h : .hit body ∈ r.segments start target) :
    target ≠ [] ∧ body.map Symbol.value = target ∧ r.isCut start target = true := by
  unfold Rule.segments at h
  split at h
  · rename_i hc
    obtain ⟨hne, hb⟩ := hit_of_mem_cutAfter h
    exact ⟨hne, hb, hc⟩
  · simp at h

theorem mem_rhs_of_hit {body : List Symbol} (h : .hit body ∈ r.segments start target) :
    ∀ s ∈ body, s ∈ r.rhs := by
  intro s hs
  rw [← @flatMap_segments start target r, List.mem_flatMap]
  exact ⟨_, h, hs⟩

theorem exists_hit {segs : List Segment} (h : hits segs ≠ 0) : ∃ body, .hit body ∈ segs := by
  obtain ⟨seg, hseg, hh⟩ := List.countP_pos_iff.1 (Nat.pos_of_ne_zero h)
  cases seg with
  | kept x => cases hh
  | hit body => exact ⟨body, hseg⟩

/-- Cutting leaves no place where the target stands. -/
theorem not_isInfix_of_hits (hne : target ≠ []) : ∀ {rhs : List Symbol},
    hits (cut target rhs) = 0 → ¬ target <:+: rhs.map Symbol.value
  | [], _, hin => hne (List.infix_nil.1 hin)
  | s :: rest, h, hin => by
    rw [cut, cutAfter] at h
    split at h
    · simp at h
    · rename_i hfront
      rw [hits_kept] at h
      rw [List.map_cons, List.infix_cons_iff] at hin
      rcases hin with hpre | hin
      · refine hfront ⟨hne, ?_⟩
        rw [List.map_take, List.map_cons]
        exact (List.prefix_iff_eq_take.1 hpre).symm
      · exact not_isInfix_of_hits hne h hin

theorem isCut_iff : r.isCut start target = true ↔
    target.length < r.rhs.length ∨ target.length = r.rhs.length ∧ r.lhs = start := by
  simp [Rule.isCut]

/-- Where there is no hit, the target stands only as the whole of a rule of another name than the
start name. -/
theorem whole_of_hits (hne : target ≠ []) (h : hits (r.segments start target) = 0)
    {pre post : List String} (hv : r.values = pre ++ target ++ post) :
    pre = [] ∧ post = [] ∧ r.lhs ≠ start := by
  have hin : target <:+: r.values := ⟨pre, post, hv.symm⟩
  have hlen := congrArg List.length hv
  simp only [Rule.values, List.length_map, List.length_append] at hlen
  rw [Rule.segments] at h
  split at h
  · exact absurd hin (not_isInfix_of_hits hne h)
  · rename_i hc
    rw [isCut_iff, not_or, not_and] at hc
    refine ⟨List.eq_nil_of_length_eq_zero ?_, List.eq_nil_of_length_eq_zero ?_, hc.2 ?_⟩ <;> omega

/-- Any rule is searched that is not the target as a whole. -/
theorem segments_eq_cut (h : r.lhs = start ∨ r.values ≠ target) :
    r.segments start target = cut target r.rhs := by
  rw [Rule.segments]
  split
  · rfl
  · rename_i hc
    suffices hhits : hits (cut target r.rhs) = 0 by
      rw [eq_map_kept hhits, flatMap_cut]
    by_contra hne
    obtain ⟨body, hbody⟩ := exists_hit hne
    have hv := (hit_of_mem_cutAfter hbody).2
    have hlen := congrArg List.length hv
    have hin := isInfix_of_hit hbody
    have hle := hin.length_le
    rw [List.length_map] at hlen
    rw [isCut_iff, not_or, not_and] at hc
    have hwhole := hin.eq_of_length (by omega)
    rw [hwhole] at hv hlen
    exact h.elim (hc.2 hlen.symm) fun hne => hne hv

theorem length_segments : r.rhs.length + hits (r.segments start target) =
    (r.segments start target).length + hits (r.segments start target) * target.length := by
  have hlen : ∀ body, .hit body ∈ r.segments start target → body.length = target.length := by
    intro body hb
    rw [← (hit_of_mem_segments hb).2.1, List.length_map]
  have h := length_flatMap_symbols hlen
  rwa [flatMap_segments] at h

end

/-! ## Assembling -/

theorem mint_shapes (s : Supply) (body : List Symbol) :
    (s.mint body).1.1.shapes = body.map Symbol.shape :=
  Supply.issue_shapes s.takeName.2 (body.map Symbol.shape)

theorem assemble_becomes : ∀ (segs : List Segment) (s : Supply),
    List.Forall₂ (Segment.Becomes (s.assemble segs).1.2) segs (s.assemble segs).1.1
  | [], _ => .nil
  | .kept x :: segs, s => .cons rfl (assemble_becomes segs s)
  | .hit body :: segs, s => by
    refine .cons ⟨rfl, _, List.mem_cons_self, rfl, mint_shapes s body⟩ ?_
    exact (assemble_becomes segs (s.mint body).2).imp fun _ _ h => h.mono fun q hq => .tail _ hq

theorem assemble_names : ∀ (segs : List Segment) (s : Supply),
    (s.assemble segs).1.2.map Rule.lhs =
      (List.range' s.nextName (hits segs)).map inducedName
  | [], _ => rfl
  | .kept x :: segs, s => by rw [hits_kept]; exact assemble_names segs s
  | .hit body :: segs, s => by
    rw [hits_hit, List.range'_succ, List.map_cons]
    exact congrArg _ (assemble_names segs (s.mint body).2)

theorem assemble_ids : ∀ (segs : List Segment) (s : Supply),
    (s.assemble segs).1.2.map Rule.id = List.range' s.nextRule (hits segs)
  | [], _ => rfl
  | .kept x :: segs, s => by rw [hits_kept]; exact assemble_ids segs s
  | .hit body :: segs, s => by
    rw [hits_hit, List.range'_succ]
    exact congrArg _ (assemble_ids segs (s.mint body).2)

theorem assemble_supply : ∀ (segs : List Segment) (s : Supply),
    (s.assemble segs).2.nextName = s.nextName + hits segs ∧
      (s.assemble segs).2.nextRule = s.nextRule + hits segs ∧
      s.nextSymbol ≤ (s.assemble segs).2.nextSymbol
  | [], _ => ⟨rfl, rfl, Nat.le_refl _⟩
  | .kept x :: segs, s => by rw [hits_kept]; exact assemble_supply segs s
  | .hit body :: segs, s => by
    obtain ⟨h₁, h₂, h₃⟩ := assemble_supply segs (s.mint body).2
    rw [hits_hit]
    refine ⟨h₁.trans ?_, h₂.trans ?_, Nat.le_trans ?_ h₃⟩
    · exact Nat.add_right_comm _ _ _
    · exact Nat.add_right_comm _ _ _
    · exact Nat.le_trans (Nat.le_add_right _ _) (Nat.le_add_right _ _)

/-- Where nothing is hit, every symbol stays. -/
theorem eq_of_forall₂_kept {new : List Rule} {xs ys : List Symbol}
    (h : List.Forall₂ (Segment.Becomes new) (xs.map .kept) ys) : ys = xs := by
  rw [List.forall₂_map_left_iff] at h
  have heq : List.Forall₂ (· = ·) ys xs := h.flip
  rwa [List.forall₂_eq_eq_eq] at heq

theorem assemble_kept (s : Supply) (x : Symbol) (segs : List Segment) :
    s.assemble (.kept x :: segs) =
      let a := s.assemble segs
      ((x :: a.1.1, a.1.2), a.2) := rfl

theorem assemble_hit (s : Supply) (body : List Symbol) (segs : List Segment) :
    s.assemble (.hit body :: segs) =
      let m := s.mint body
      let a := m.2.assemble segs
      ((m.1.2 :: a.1.1, m.1.1 :: a.1.2), a.2) := rfl

/-- Values move to the new rules, and each new name is referred to once more than before. -/
theorem count_assemble (v : String) : ∀ (segs : List Segment) (s : Supply),
    let a := (s.assemble segs).1
    (a.1.map Symbol.value).count v + (a.2.flatMap Rule.values).count v =
      ((segs.flatMap Segment.symbols).map Symbol.value).count v + (a.2.map Rule.lhs).count v
  | [], _ => rfl
  | .kept x :: segs, s => by
    have ih := count_assemble v segs s
    simp only [assemble_kept, List.map_cons, List.flatMap_cons, Segment.symbols,
      List.singleton_append, List.count_cons] at ih ⊢
    omega
  | .hit body :: segs, s => by
    have ih := count_assemble v segs (s.mint body).2
    have hv : (s.mint body).1.1.values = body.map Symbol.value := by
      rw [values_of_shapes (mint_shapes s body), map_fst_shape]
    have hl : (s.mint body).1.2.value = (s.mint body).1.1.lhs := rfl
    simp only [assemble_hit, List.map_cons, List.flatMap_cons, Segment.symbols, List.map_append,
      List.count_append, List.count_cons, hv, hl] at ih ⊢
    omega

/-- Every new rule comes from a hit, and a reference to it stands in the result. -/
theorem exists_of_mem_assemble : ∀ {segs : List Segment} {s : Supply} {q : Rule},
    q ∈ (s.assemble segs).1.2 →
      (∃ body, .hit body ∈ segs ∧ q.shapes = body.map Symbol.shape) ∧
      ∃ y ∈ (s.assemble segs).1.1, y.terminal = false ∧ y.value = q.lhs
  | [], _, _, h => by cases h
  | .kept x :: segs, s, q, h => by
    obtain ⟨⟨body, hb, hs⟩, y, hy, ht⟩ := @exists_of_mem_assemble segs s q h
    exact ⟨⟨body, .tail _ hb, hs⟩, y, .tail _ hy, ht⟩
  | .hit body :: segs, s, q, h => by
    rcases List.mem_cons.1 h with rfl | h
    · exact ⟨⟨body, List.mem_cons_self, mint_shapes s body⟩, _, List.mem_cons_self, rfl, rfl⟩
    · obtain ⟨⟨body', hb, hs⟩, y, hy, ht⟩ := @exists_of_mem_assemble segs _ q h
      exact ⟨⟨body', .tail _ hb, hs⟩, y, .tail _ hy, ht⟩

/-- Without a hit nothing changes. -/
theorem assemble_eq_of_hits {segs : List Segment} (h : hits segs = 0) (s : Supply) :
    s.assemble segs = ((segs.flatMap Segment.symbols, []), s) := by
  induction segs with
  | nil => rfl
  | cons seg segs ih =>
    cases seg with
    | kept x =>
      rw [hits_kept] at h
      rw [Supply.assemble, ih h]
      rfl
    | hit body => simp at h

end GrammarInduction
