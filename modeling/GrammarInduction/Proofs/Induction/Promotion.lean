import GrammarInduction.Proofs.Grammar.Loading
import GrammarInduction.Proofs.Grammar.Merge
import GrammarInduction.Proofs.Induction.Segments
import Mathlib.Algebra.GroupWithZero.Nat

/-!
# What a promotion does

`Supply.rewrite` is promotion without the detour over ids: every rule is cut and assembled where it
stands, and the new rules are collected. Where ids are distinct, promotion succeeds, puts the
rewritten rules in place of the old ones and appends the new ones (`promote_eq`).

`Promotes target g g' old new` is what the proofs about promotion start from (`promote_spec`): the
rules `old` stand for those of `g`, symbol by segment, and the rules `new` have consecutive names
and ids, one for each hit. Each new name is referred to once (`count_promote`).
-/

namespace GrammarInduction

/-- Every rule cut and assembled, and the new rules. -/
def Supply.rewrite (start : String) (target : List String) (s : Supply) :
    List Rule → (List Rule × List Rule) × Supply
  | [] => (([], []), s)
  | r :: rest =>
    let ((rhs, new), s) := s.assemble (r.segments start target)
    let ((old, induced), s) := s.rewrite start target rest
    (({ r with rhs } :: old, new ++ induced), s)

section
variable {start : String} {target : List String}

theorem rewrite_cons (s : Supply) (r : Rule) (rest : List Rule) :
    s.rewrite start target (r :: rest) =
      let a := s.assemble (r.segments start target)
      let b := a.2.rewrite start target rest
      (({ r with rhs := a.1.1 } :: b.1.1, a.1.2 ++ b.1.2), b.2) := rfl

theorem promoteIn_cons (s : Supply) (r : Rule) (rest : List Rule) :
    s.promoteIn start target (r :: rest) =
      if r.isCut start target then
        let a := s.assemble (cut target r.rhs)
        let b := a.2.promoteIn start target rest
        ((if a.1.2 = [] then b.1.1 else { r with rhs := a.1.1 } :: b.1.1, a.1.2 ++ b.1.2), b.2)
      else s.promoteIn start target rest := rfl

/-! ## Putting rules back -/

theorem replaceFirst_append {p : Rule → Bool} {q : Rule} (r : Rule) (rest : List Rule) :
    ∀ {pre : List Rule}, (∀ x ∈ pre, p x = false) → p q = true →
      Grammar.replaceFirst p r (pre ++ q :: rest) = some (q, pre ++ r :: rest)
  | [], _, hq => by simp [Grammar.replaceFirst, hq]
  | x :: pre, hpre, hq => by
    have hx := hpre x List.mem_cons_self
    have ih := replaceFirst_append r rest (fun y hy => hpre y (.tail _ hy)) hq
    rw [List.cons_append, Grammar.replaceFirst, if_neg (by simp [hx]), ih]
    rfl

theorem replaceRule_append (g : Grammar) {pre rest : List Rule} {q : Rule} (rhs : List Symbol)
    (hid : ((pre ++ q :: rest).map Rule.id).Nodup) :
    (Grammar.replaceRule { g with rules := pre ++ q :: rest } { q with rhs }).map (·.2) =
      .ok { g with rules := pre ++ { q with rhs } :: rest } := by
  have hpre : ∀ x ∈ pre, (x.id == q.id) = false := by
    intro x hx
    rw [List.map_append, List.nodup_append] at hid
    have := hid.2.2 x.id (List.mem_map_of_mem hx) q.id (by simp)
    simpa using this
  rw [Grammar.replaceRule, replaceFirst_append _ rest hpre (by simp)]
  rfl

theorem promoteIn_new (s : Supply) : ∀ rules : List Rule,
    (s.promoteIn start target rules).1.2 = (s.rewrite start target rules).1.2 ∧
      (s.promoteIn start target rules).2 = (s.rewrite start target rules).2
  | [] => ⟨rfl, rfl⟩
  | r :: rest => by
    rw [promoteIn_cons, rewrite_cons, Rule.segments]
    split
    · obtain ⟨h₁, h₂⟩ := promoteIn_new (s.assemble (cut target r.rhs)).2 rest
      exact ⟨congrArg (_ ++ ·) h₁, h₂⟩
    · rw [assemble_eq_of_hits (hits_map_kept r.rhs)]
      exact promoteIn_new s rest

theorem hits_eq_zero {segs : List Segment} {s : Supply} (h : (s.assemble segs).1.2 = []) :
    hits segs = 0 := by
  have hl := congrArg List.length (assemble_names segs s)
  simpa [h] using hl.symm

/-- Putting the changed rules back one by one gives the rewritten rules. -/
theorem foldlM_replaceRule {g : Grammar} : ∀ (rules pre : List Rule) (s : Supply),
    ((pre ++ rules).map Rule.id).Nodup →
    (s.promoteIn start target rules).1.1.foldlM (fun g r => (g.replaceRule r).map (·.2))
        { g with rules := pre ++ rules } =
      .ok { g with rules := pre ++ (s.rewrite start target rules).1.1 }
  | [], _, _, _ => rfl
  | r :: rest, pre, s, hid => by
    have hput : ∀ (r' : Rule) (s : Supply), r'.id = r.id →
        (s.promoteIn start target rest).1.1.foldlM (fun g r => (g.replaceRule r).map (·.2))
            { g with rules := pre ++ r' :: rest } =
          .ok { g with rules := pre ++ r' :: (s.rewrite start target rest).1.1 } := by
      intro r' s hr'
      have ih := foldlM_replaceRule (g := g) rest (pre ++ [r']) s (by simpa [hr'] using hid)
      simpa only [List.append_assoc, List.singleton_append] using ih
    -- a rule without a hit is not put back, but rewriting leaves it alone as well
    have hsame : ∀ segs : List Segment, segs.flatMap Segment.symbols = r.rhs → hits segs = 0 →
        ({ r with rhs := (s.assemble segs).1.1 } : Rule) = r := by
      intro segs hf h
      rw [assemble_eq_of_hits h, hf]
    rw [promoteIn_cons, rewrite_cons, Rule.segments]
    split
    · by_cases hnew : (s.assemble (cut target r.rhs)).1.2 = []
      · simp only [hnew, if_true, hsame _ (flatMap_cut target r.rhs) (hits_eq_zero hnew)]
        exact hput r _ rfl
      · simp only [hnew, if_false, List.foldlM_cons]
        rw [replaceRule_append g _ hid]
        exact hput _ _ rfl
    · simp only [assemble_eq_of_hits (hits_map_kept r.rhs), flatMap_map_kept]
      exact hput r s rfl

/-! ## Appending the new rules -/

theorem past_mint (s : Supply) (body : List Symbol) : (s.mint body).2.Past (s.mint body).1.1 := by
  refine ⟨fun x hx => ?_, Nat.lt_succ_self _, fun n hn => ?_⟩
  · have hids := s.takeName.2.issue_ids (body.map fun x => (x.value, x.terminal))
    have hmem : x.id ∈ (s.takeName.2.issue (body.map fun x => (x.value, x.terminal))).1.map
        Symbol.id := List.mem_map_of_mem hx
    rw [hids, List.mem_range'_1] at hmem
    exact Nat.lt_succ_of_lt hmem.2
  · rw [eq_of_nameNumber? (n := s.nextName) hn]
    exact Nat.lt_succ_self _

theorem past_of_mem_assemble : ∀ {segs : List Segment} {s : Supply} {q : Rule},
    q ∈ (s.assemble segs).1.2 → (s.assemble segs).2.Past q
  | [], _, _, h => by cases h
  | .kept x :: segs, s, q, h => @past_of_mem_assemble segs s q h
  | .hit body :: segs, s, q, h => by
    obtain ⟨hn, hr, hs⟩ := assemble_supply segs (s.mint body).2
    rcases List.mem_cons.1 h with rfl | h
    · exact (past_mint s body).mono hs (hr ▸ Nat.le_add_right _ _) (hn ▸ Nat.le_add_right _ _)
    · exact @past_of_mem_assemble segs _ q h

theorem length_assemble (segs : List Segment) (s : Supply) :
    (s.assemble segs).1.2.length = hits segs := by
  have h := congrArg List.length (assemble_ids segs s)
  rwa [List.length_map, List.length_range'] at h

theorem length_rewrite (s : Supply) : ∀ rules : List Rule,
    (s.rewrite start target rules).1.2.length =
      (rules.map fun r => hits (r.segments start target)).sum
  | [] => rfl
  | r :: rest => by
    rw [rewrite_cons, List.map_cons, List.sum_cons]
    simp only [List.length_append, length_assemble]
    rw [length_rewrite _ rest]

theorem rewrite_supply (s : Supply) : ∀ rules : List Rule,
    let new := (s.rewrite start target rules).1.2
    (s.rewrite start target rules).2.nextName = s.nextName + new.length ∧
      (s.rewrite start target rules).2.nextRule = s.nextRule + new.length ∧
      s.nextSymbol ≤ (s.rewrite start target rules).2.nextSymbol
  | [] => ⟨rfl, rfl, Nat.le_refl _⟩
  | r :: rest => by
    obtain ⟨hn, hr, hs⟩ := assemble_supply (r.segments start target) s
    obtain ⟨hn', hr', hs'⟩ := rewrite_supply (s.assemble (r.segments start target)).2 rest
    simp only [rewrite_cons, List.length_append, length_assemble]
    exact ⟨by rw [hn', hn, Nat.add_assoc], by rw [hr', hr, Nat.add_assoc], Nat.le_trans hs hs'⟩

theorem past_of_mem_rewrite : ∀ {rules : List Rule} {s : Supply} {q : Rule},
    q ∈ (s.rewrite start target rules).1.2 → (s.rewrite start target rules).2.Past q
  | [], _, _, h => by cases h
  | r :: rest, s, q, h => by
    rw [rewrite_cons] at h ⊢
    obtain ⟨hn, hr, hs⟩ :=
      @rewrite_supply start target (s.assemble (r.segments start target)).2 rest
    rcases List.mem_append.1 h with h | h
    · exact (past_of_mem_assemble h).mono hs (hr ▸ Nat.le_add_right _ _)
        (hn ▸ Nat.le_add_right _ _)
    · exact @past_of_mem_rewrite rest _ q h

end

/-- Promotion as rewriting. -/
theorem promote_eq {g : Grammar} (hid : (g.rules.map Rule.id).Nodup) (target : List String) :
    let w := g.supply.rewrite g.start target g.rules
    g.promote target =
      .ok (w.1.2.length, { g with rules := w.1.1 ++ w.1.2, supply := w.2 }) := by
  obtain ⟨hnew, hsup⟩ := @promoteIn_new g.start target g.supply g.rules
  have hput := @foldlM_replaceRule g.start target
    { g with supply := (g.supply.rewrite g.start target g.rules).2 } g.rules [] g.supply hid
  have hpush := @foldl_pushRule { g with supply := (g.supply.rewrite g.start target g.rules).2 }
    (g.supply.rewrite g.start target g.rules).1.2 (g.supply.rewrite g.start target g.rules).1.1
    fun q hq => past_of_mem_rewrite hq
  simp only [List.nil_append] at hput
  simp only [Grammar.promote, hnew, hsup, hput, bind, Except.bind, pure, Except.pure, hpush]

theorem promoteIn_of_hits {start : String} {target : List String} (s : Supply) :
    ∀ {rules : List Rule}, (∀ r ∈ rules, hits (r.segments start target) = 0) →
      s.promoteIn start target rules = (([], []), s)
  | [], _ => rfl
  | r :: rest, h => by
    have hr := h r List.mem_cons_self
    have ih := promoteIn_of_hits s fun q hq => h q (.tail _ hq)
    rw [promoteIn_cons]
    split
    · rename_i hc
      rw [Rule.segments, if_pos hc] at hr
      simp only [assemble_eq_of_hits hr, ih, if_true, List.append_nil]
    · exact ih

/-- Without a hit the grammar stays as it is, down to its supply. -/
theorem promote_of_hits {g : Grammar} {target : List String}
    (h : ∀ r ∈ g.rules, hits (r.segments g.start target) = 0) : g.promote target = .ok (0, g) := by
  rw [Grammar.promote, promoteIn_of_hits g.supply h]
  rfl

/-! ## The effect of a promotion -/

/-- `r'` has a symbol for each segment of `r`. -/
structure Rule.Becomes (start : String) (target : List String) (new : List Rule) (r r' : Rule) :
    Prop where
  lhs : r'.lhs = r.lhs
  id : r'.id = r.id
  rhs : List.Forall₂ (Segment.Becomes new) (r.segments start target) r'.rhs

/-- A reference for a hit has a new rule. -/
theorem Rule.Becomes.hits_eq_zero {start : String} {target : List String} {r r' : Rule}
    (h : r.Becomes start target [] r') : hits (r.segments start target) = 0 := by
  by_contra hne
  obtain ⟨body, hbody⟩ := exists_hit hne
  obtain ⟨y, -, -, q, hq, -⟩ := exists_right_of_forall₂ h.rhs hbody
  cases hq

/-- Promoting `target` takes `g` to `g'`: the rules of `g` become `old`, and `new` are added. -/
structure Promotes (target : List String) (g g' : Grammar) (old new : List Rule) : Prop where
  start : g'.start = g.start
  rules : g'.rules = old ++ new
  becomes : List.Forall₂ (Rule.Becomes g.start target new) g.rules old
  source : ∀ q ∈ new, ∃ r ∈ g.rules, (∃ body, .hit body ∈ r.segments g.start target ∧
    q.shapes = body.map Symbol.shape) ∧
    ∃ r' ∈ old, r'.lhs = r.lhs ∧ ∃ y ∈ r'.rhs, y.terminal = false ∧ y.value = q.lhs
  names : new.map Rule.lhs = (List.range' g.supply.nextName new.length).map inducedName
  ids : new.map Rule.id = List.range' g.supply.nextRule new.length
  length : new.length = (g.rules.map fun r => hits (r.segments g.start target)).sum
  nextName : g'.supply.nextName = g.supply.nextName + new.length
  nextRule : g'.supply.nextRule = g.supply.nextRule + new.length

theorem rewrite_becomes {start : String} {target : List String} : ∀ (rules : List Rule)
    (s : Supply), let w := s.rewrite start target rules
    List.Forall₂ (Rule.Becomes start target w.1.2) rules w.1.1
  | [], _ => .nil
  | r :: rest, s => by
    rw [rewrite_cons]
    refine .cons ⟨rfl, rfl, ?_⟩ ?_
    · exact (assemble_becomes (r.segments start target) s).imp fun _ _ h =>
        h.mono fun q hq => List.mem_append_left _ hq
    · exact (rewrite_becomes rest (s.assemble (r.segments start target)).2).imp fun _ _ h =>
        ⟨h.lhs, h.id, h.rhs.imp fun _ _ h => h.mono fun q hq => List.mem_append_right _ hq⟩

theorem rewrite_new {start : String} {target : List String} : ∀ {rules : List Rule} {s : Supply},
    let w := s.rewrite start target rules
    ∀ q ∈ w.1.2, ∃ r ∈ rules, (∃ body, .hit body ∈ r.segments start target ∧
      q.shapes = body.map Symbol.shape) ∧
      ∃ r' ∈ w.1.1, r'.lhs = r.lhs ∧ ∃ y ∈ r'.rhs, y.terminal = false ∧ y.value = q.lhs
  | [], _, _, h => by cases h
  | r :: rest, s, q, h => by
    rw [rewrite_cons] at h ⊢
    rcases List.mem_append.1 h with h | h
    · obtain ⟨hbody, hy⟩ := exists_of_mem_assemble h
      exact ⟨r, List.mem_cons_self, hbody, _, List.mem_cons_self, rfl, hy⟩
    · obtain ⟨p, hp, hbody, p', hp', hy⟩ := @rewrite_new start target rest _ q h
      exact ⟨p, .tail _ hp, hbody, p', .tail _ hp', hy⟩

theorem rewrite_names {start : String} {target : List String} : ∀ (rules : List Rule)
    (s : Supply), let new := (s.rewrite start target rules).1.2
    new.map Rule.lhs = (List.range' s.nextName new.length).map inducedName ∧
      new.map Rule.id = List.range' s.nextRule new.length
  | [], _ => ⟨rfl, rfl⟩
  | r :: rest, s => by
    obtain ⟨hn, hi⟩ := @rewrite_names start target rest (s.assemble (r.segments start target)).2
    obtain ⟨hsn, hsi, -⟩ := assemble_supply (r.segments start target) s
    simp only [rewrite_cons, List.map_append, List.length_append, hn, hi, hsn, hsi,
      assemble_names, assemble_ids, length_assemble, ← List.range'_append_1, and_self]

theorem count_rewrite {start : String} {target : List String} (v : String) :
    ∀ (rules : List Rule) (s : Supply), let w := (s.rewrite start target rules).1
    (w.1.flatMap Rule.values).count v + (w.2.flatMap Rule.values).count v =
      (rules.flatMap Rule.values).count v + (w.2.map Rule.lhs).count v
  | [], _ => rfl
  | r :: rest, s => by
    have ih := @count_rewrite start target v rest (s.assemble (r.segments start target)).2
    have hr := count_assemble v (r.segments start target) s
    rw [flatMap_segments] at hr
    simp only [rewrite_cons, List.flatMap_cons, List.flatMap_append, List.map_append,
      List.count_append, Rule.values] at ih hr ⊢
    omega

/-- A promotion only adds one reference to each new name to the values of a grammar. -/
theorem count_promote {g g' : Grammar} (hid : (g.rules.map Rule.id).Nodup) {target : List String}
    {n : Nat} (h : g.promote target = .ok (n, g')) (v : String) :
    (g'.rules.flatMap Rule.values).count v = (g.rules.flatMap Rule.values).count v +
      ((List.range' g.supply.nextName n).map inducedName).count v := by
  have hcount := @count_rewrite g.start target v g.rules g.supply
  simp only [(rewrite_names g.rules g.supply).1] at hcount
  rw [promote_eq hid, Except.ok.injEq, Prod.mk.injEq] at h
  obtain ⟨rfl, rfl⟩ := h
  rw [List.flatMap_append, List.count_append]
  exact hcount

theorem promotes_rewrite (g : Grammar) (target : List String) :
    let w := g.supply.rewrite g.start target g.rules
    Promotes target g { g with rules := w.1.1 ++ w.1.2, supply := w.2 } w.1.1 w.1.2 := by
  obtain ⟨hn, hi⟩ := @rewrite_names g.start target g.rules g.supply
  obtain ⟨hsn, hsr, -⟩ := @rewrite_supply g.start target g.supply g.rules
  exact ⟨rfl, rfl, rewrite_becomes g.rules g.supply, rewrite_new, hn, hi,
    length_rewrite g.supply g.rules, hsn, hsr⟩

theorem promote_spec {g : Grammar} (hid : (g.rules.map Rule.id).Nodup) (target : List String) :
    ∃ g' old new, g.promote target = .ok (new.length, g') ∧ Promotes target g g' old new :=
  ⟨_, _, _, promote_eq hid target, promotes_rewrite g target⟩

namespace Promotes

variable {target : List String} {g g' : Grammar} {old new : List Rule}

theorem mem_rules (h : Promotes target g g' old new) {r : Rule} :
    r ∈ g'.rules ↔ r ∈ old ∨ r ∈ new := by rw [h.rules, List.mem_append]

theorem exists_old (h : Promotes target g g' old new) {r : Rule} (hr : r ∈ g.rules) :
    ∃ r' ∈ old, r.Becomes g.start target new r' := exists_right_of_forall₂ h.becomes hr

theorem exists_source (h : Promotes target g g' old new) {r' : Rule} (hr' : r' ∈ old) :
    ∃ r ∈ g.rules, r.Becomes g.start target new r' := exists_left_of_forall₂ h.becomes hr'

theorem name_of_new (h : Promotes target g g' old new) {q : Rule} (hq : q ∈ new) :
    ∃ n, g.supply.nextName ≤ n ∧ n < g'.supply.nextName ∧ q.lhs = inducedName n := by
  have hm := List.mem_map_of_mem (f := Rule.lhs) hq
  rw [h.names, List.mem_map] at hm
  obtain ⟨n, hn, he⟩ := hm
  rw [List.mem_range'_1] at hn
  exact ⟨n, hn.1, by rw [h.nextName]; exact hn.2, he.symm⟩

theorem nodup_names (h : Promotes target g g' old new) : (new.map Rule.lhs).Nodup := by
  rw [h.names]
  exact List.Nodup.map inducedName_injective List.nodup_range'

theorem eq_of_new (h : Promotes target g g' old new) {q p : Rule} (hq : q ∈ new) (hp : p ∈ new)
    (he : q.lhs = p.lhs) : q = p := List.inj_on_of_nodup_map h.nodup_names hq hp he

/-- A new rule spells the target. -/
theorem values_of_new (h : Promotes target g g' old new) {q : Rule} (hq : q ∈ new) :
    target ≠ [] ∧ q.values = target := by
  obtain ⟨r, -, ⟨body, hb, hs⟩, -⟩ := h.source q hq
  obtain ⟨hne, hv, -⟩ := hit_of_mem_segments hb
  rw [values_of_shapes hs, map_fst_shape]
  exact ⟨hne, hv⟩

theorem ids_old (h : Promotes target g g' old new) : old.map Rule.id = g.rules.map Rule.id :=
  map_eq_of_forall₂ h.becomes fun hb => hb.id

theorem ids_lt (h : Promotes target g g' old new) (hlt : ∀ r ∈ g.rules, r.id < g.supply.nextRule) :
    ∀ r ∈ g'.rules, r.id < g'.supply.nextRule := by
  intro r hr
  rw [h.nextRule]
  rcases h.mem_rules.1 hr with hr | hr
  · obtain ⟨p, hp, hb⟩ := h.exists_source hr
    rw [hb.id]
    exact Nat.lt_add_right _ (hlt p hp)
  · have hm := List.mem_map_of_mem (f := Rule.id) hr
    rw [h.ids, List.mem_range'_1] at hm
    exact hm.2

theorem nodup_ids (h : Promotes target g g' old new) (hid : (g.rules.map Rule.id).Nodup)
    (hlt : ∀ r ∈ g.rules, r.id < g.supply.nextRule) : (g'.rules.map Rule.id).Nodup := by
  rw [h.rules, List.map_append, h.ids_old, h.ids]
  refine hid.append List.nodup_range' fun i hi hi' => ?_
  obtain ⟨r, hr, rfl⟩ := List.mem_map.1 hi
  have := hlt r hr
  rw [List.mem_range'_1] at hi'
  omega

/-- A promotion that adds no rule has no hit. -/
theorem hits_eq_zero (h : Promotes target g g' old new) (hnew : new = []) :
    ∀ r ∈ g.rules, hits (r.segments g.start target) = 0 := by
  subst hnew
  intro r hr
  obtain ⟨r', -, hb⟩ := h.exists_old hr
  exact hb.hits_eq_zero

/-- A promotion that adds no rule changes none. -/
theorem eq_rules (h : Promotes target g g' old new) (hnew : new = []) : g'.rules = g.rules := by
  subst hnew
  have hsame : ∀ {r r'}, Rule.Becomes g.start target [] r r' → r' = r := by
    intro r r' hb
    have hrhs := hb.rhs
    rw [eq_map_kept hb.hits_eq_zero, flatMap_segments] at hrhs
    have heq := eq_of_forall₂_kept hrhs
    obtain ⟨hl, hi, -⟩ := hb
    cases r
    cases r'
    rw [Rule.mk.injEq]
    exact ⟨hl, heq, hi⟩
  have hold := map_eq_of_forall₂ (f := id) h.becomes hsame
  rw [List.map_id, List.map_id] at hold
  rw [h.rules, List.append_nil, hold]

end Promotes

end GrammarInduction
