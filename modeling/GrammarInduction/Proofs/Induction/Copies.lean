import GrammarInduction.Proofs.Induction.WellFormed

/-!
# Copies

A promotion gives every place a rule of its own, so that copies of a line are rewritten with
different names. `Grammar.Copies first R g` says that the names handed out since the number `first`
differ in name only: `R` relates names that stand at corresponding places, rules of related names
have related right-hand sides, and so have lines that spell the same words. Promotions keep this, as
their targets hold none of those names (`Copies.promote`), so that related rules are cut alike
(`segments_matches`). Related right-hand sides unfold alike (`Copies.unfolds`).
-/

namespace GrammarInduction

/-- The values of symbols side by side are related. -/
def Matches (R : String → String → Prop) (xs ys : List Symbol) : Prop :=
  List.Forall₂ (fun x y => R x.value y.value) xs ys

/-- The value is related to itself at most. -/
def Rigid (R : String → String → Prop) (v : String) : Prop := ∀ w, (R v w → w = v) ∧ (R w v → w = v)

section
variable {R : String → String → Prop}

theorem Matches.values_eq {xs ys : List Symbol} (h : Matches R xs ys)
    (hr : ∀ v ∈ xs.map Symbol.value, Rigid R v) : ys.map Symbol.value = xs.map Symbol.value := by
  induction h with
  | nil => rfl
  | cons hxy _ ih =>
    rw [List.map_cons, List.map_cons, (hr _ List.mem_cons_self _).1 hxy, ih fun v hv =>
      hr v (.tail _ hv)]

/-- Of two related sequences, both or none spell a rigid target. -/
theorem Matches.values_eq_iff {xs ys : List Symbol} {target : List String} (h : Matches R xs ys)
    (hr : ∀ v ∈ target, Rigid R v) :
    xs.map Symbol.value = target ↔ ys.map Symbol.value = target := by
  constructor
  · rintro rfl
    exact h.values_eq hr
  · rintro rfl
    have hswap : Matches (Function.swap R) ys xs := h.flip
    exact hswap.values_eq fun v hv w => (hr v hv w).symm

theorem matches_of_values (hrefl : ∀ a, R a a) : ∀ {xs ys : List Symbol},
    xs.map Symbol.value = ys.map Symbol.value → Matches R xs ys
  | [], [], _ => .nil
  | x :: xs, y :: ys, h => by
    rw [List.map_cons, List.map_cons, List.cons.injEq] at h
    exact .cons (h.1 ▸ hrefl x.value) (matches_of_values hrefl h.2)

/-! ## Cutting alike -/

/-- Both segments are hits, or both are kept symbols with related values. -/
inductive Segment.Matches (R : String → String → Prop) : Segment → Segment → Prop
  | kept {x y : Symbol} : R x.value y.value → Segment.Matches R (.kept x) (.kept y)
  | hit {xs ys : List Symbol} : Segment.Matches R (.hit xs) (.hit ys)

theorem cutAfter_matches {target : List String} (hr : ∀ v ∈ target, Rigid R v) (skip : Nat)
    {xs ys : List Symbol} (h : Matches R xs ys) :
    List.Forall₂ (Segment.Matches R) (cutAfter target skip xs) (cutAfter target skip ys) := by
  fun_induction cutAfter target skip xs generalizing ys with
  | case1 skip =>
    cases h
    rw [cutAfter]
    exact .nil
  | case2 skip s rest ih =>
    rcases h with _ | ⟨-, h⟩
    exact ih h
  | case3 s rest front hf =>
    rename_i ih
    rcases h with _ | @⟨_, y, _, ys, hy, h⟩
    have hfront : Matches R front ((y :: ys).take target.length) :=
      List.forall₂_take _ (.cons hy h)
    rw [cutAfter, if_pos ⟨hf.1, (hfront.values_eq_iff hr).1 hf.2⟩]
    exact .cons .hit (ih h)
  | case4 s rest front hf =>
    rename_i ih
    rcases h with _ | @⟨_, y, _, ys, hy, h⟩
    have hfront : Matches R front ((y :: ys).take target.length) :=
      List.forall₂_take _ (.cons hy h)
    rw [cutAfter, if_neg fun hf' => hf ⟨hf'.1, (hfront.values_eq_iff hr).2 hf'.2⟩]
    exact .cons (.kept hy) (ih h)

theorem segments_matches {start : String} {target : List String} (hr : ∀ v ∈ target, Rigid R v)
    {r q : Rule} (hl : r.lhs = start ↔ q.lhs = start) (h : Matches R r.rhs q.rhs) :
    List.Forall₂ (Segment.Matches R) (r.segments start target) (q.segments start target) := by
  have hcut : r.isCut start target = q.isCut start target := by
    rw [Bool.eq_iff_iff, isCut_iff, isCut_iff, h.length_eq, hl]
  rw [Rule.segments, Rule.segments, hcut]
  split
  · exact cutAfter_matches hr 0 h
  · rw [List.forall₂_map_left_iff, List.forall₂_map_right_iff]
    exact h.imp fun _ _ => .kept

/-- `R`, and the names of new rules among each other. -/
def extend (R : String → String → Prop) (new : List Rule) (a b : String) : Prop :=
  R a b ∨ a ∈ new.map Rule.lhs ∧ b ∈ new.map Rule.lhs

/-- What comes from segments alike is related. -/
theorem matches_of_becomes {new : List Rule} {segs segs' : List Segment}
    (h : List.Forall₂ (Segment.Matches R) segs segs') : ∀ {ys ys' : List Symbol},
    List.Forall₂ (Segment.Becomes new) segs ys → List.Forall₂ (Segment.Becomes new) segs' ys' →
    Matches (extend R new) ys ys' := by
  induction h with
  | nil =>
    rintro _ _ ⟨⟩ ⟨⟩
    exact .nil
  | cons hs _ ih =>
    rintro _ _ (_ | ⟨hy, h⟩) (_ | ⟨hy', h'⟩)
    refine .cons ?_ (ih h h')
    cases hs with
    | kept hR =>
      rw [hy, hy']
      exact .inl hR
    | hit =>
      obtain ⟨-, q, hq, hl, -⟩ := hy
      obtain ⟨-, q', hq', hl', -⟩ := hy'
      exact .inr ⟨hl ▸ List.mem_map_of_mem hq, hl' ▸ List.mem_map_of_mem hq'⟩

end

/-! ## Related names -/

namespace Grammar

/-- The name has been handed out since the number `first`. -/
def Recent (first : Nat) (g : Grammar) (name : String) : Prop :=
  ∃ n, first ≤ n ∧ n < g.supply.nextName ∧ name = inducedName n

/-- `R` relates recent names that differ in name only (module doc). -/
structure Copies (first : Nat) (R : String → String → Prop) (g : Grammar) : Prop where
  refl : ∀ a, R a a
  recent : ∀ a b, R a b → a = b ∨ g.Recent first a ∧ g.Recent first b
  rules : ∀ r ∈ g.rules, ∀ q ∈ g.rules, r.lhs ≠ g.start → q.lhs ≠ g.start → R r.lhs q.lhs →
    Matches R r.rhs q.rhs
  lines : ∀ r ∈ g.rules, ∀ q ∈ g.rules, r.lhs = g.start → q.lhs = g.start →
    ∀ ws, Spells g.rules r.rhs ws → Spells g.rules q.rhs ws → Matches R r.rhs q.rhs

namespace Copies

variable {first : Nat} {R : String → String → Prop} {g : Grammar}

/-- Before a pass, names are related to themselves. -/
theorem initial (h : g.Inv) (hlines : ∀ r ∈ g.rules, ∀ q ∈ g.rules, r.lhs = g.start →
    q.lhs = g.start → ∀ ws, Spells g.rules r.rhs ws → Spells g.rules q.rhs ws →
    r.values = q.values) : g.Copies g.supply.nextName Eq where
  refl := fun _ => rfl
  recent := fun _ _ => .inl
  rules := by
    intro r hr q hq hs _ hl
    rw [h.one r hr q hq hl hs]
    exact matches_of_values (fun _ => rfl) rfl
  lines := fun r hr q hq hrs hqs ws hrw hqw =>
    matches_of_values (fun _ => rfl) (hlines r hr q hq hrs hqs ws hrw hqw)

theorem rigid (hc : g.Copies first R) {v : String} (hv : ∀ n, first ≤ n → inducedName n ≠ v) :
    Rigid R v := by
  refine fun w => ⟨fun h => ?_, fun h => ?_⟩
  · rcases hc.recent v w h with he | ⟨⟨n, hn, -, he⟩, -⟩
    · exact he.symm
    · exact absurd he.symm (hv n hn)
  · rcases hc.recent w v h with he | ⟨-, n, hn, -, he⟩
    · exact he
    · exact absurd he.symm (hv n hn)

section
variable {target : List String} {g' : Grammar} {old new : List Rule} (h : g.Inv)
  (hc : g.Copies first R) (hp : Promotes target g g' old new)

include h hc hp in
/-- A name from before the promotion is not related to a new one. -/
theorem not_extend {r q : Rule} (hr : r ∈ g.rules) (hq : q ∈ new) :
    ¬ extend R new r.lhs q.lhs ∧ ¬ extend R new q.lhs r.lhs := by
  obtain ⟨n, hn, -, he⟩ := hp.name_of_new hq
  have hold : r.lhs ∉ new.map Rule.lhs := by
    intro hm
    obtain ⟨p, hpn, hl⟩ := List.mem_map.1 hm
    exact hp.lhs_ne_of_new h.fresh hr hpn hl.symm
  have hnew : ¬ g.Recent first q.lhs := by
    rintro ⟨m, -, hm, he'⟩
    have := inducedName_injective (he'.symm.trans he)
    omega
  constructor
  · rintro (hR | ⟨hm, -⟩)
    · rcases hc.recent _ _ hR with he | ⟨-, hrec⟩
      · exact hp.lhs_ne_of_new h.fresh hr hq he
      · exact hnew hrec
    · exact hold hm
  · rintro (hR | ⟨-, hm⟩)
    · rcases hc.recent _ _ hR with he | ⟨hrec, -⟩
      · exact hp.lhs_ne_of_new h.fresh hr hq he.symm
      · exact hnew hrec
    · exact hold hm

include hc in
/-- Rules that are related are related after a promotion. -/
theorem matches_promote (ht : ∀ v ∈ target, ∀ n, first ≤ n → inducedName n ≠ v)
    {r q r' q' : Rule} (hl : r.lhs = g.start ↔ q.lhs = g.start) (hm : Matches R r.rhs q.rhs)
    (hr : r.Becomes g.start target new r') (hq : q.Becomes g.start target new q') :
    Matches (extend R new) r'.rhs q'.rhs :=
  matches_of_becomes (segments_matches (fun v hv => hc.rigid (ht v hv)) hl hm) hr.rhs hq.rhs

include h hc hp in
theorem rules_promote (ht : ∀ v ∈ target, ∀ n, first ≤ n → inducedName n ≠ v) {r' q' : Rule}
    (hr' : r' ∈ g'.rules) (hq' : q' ∈ g'.rules) (hrs : r'.lhs ≠ g'.start) (hqs : q'.lhs ≠ g'.start)
    (hR : extend R new r'.lhs q'.lhs) : Matches (extend R new) r'.rhs q'.rhs := by
  rw [hp.start] at hrs hqs
  rcases hp.mem_rules.1 hr' with hro | hrn <;> rcases hp.mem_rules.1 hq' with hqo | hqn
  · obtain ⟨r, hr, hrb⟩ := hp.exists_source hro
    obtain ⟨q, hq, hqb⟩ := hp.exists_source hqo
    rw [hrb.lhs] at hrs hR
    rw [hqb.lhs] at hqs hR
    rcases hR with hR | ⟨hm, -⟩
    · exact hc.matches_promote ht (iff_of_false hrs hqs) (hc.rules r hr q hq hrs hqs hR) hrb hqb
    · obtain ⟨p, hpn, hl⟩ := List.mem_map.1 hm
      exact absurd hl.symm (hp.lhs_ne_of_new h.fresh hr hpn)
  · obtain ⟨r, hr, hrb⟩ := hp.exists_source hro
    exact absurd (hrb.lhs ▸ hR) (hc.not_extend h hp hr hqn).1
  · obtain ⟨q, hq, hqb⟩ := hp.exists_source hqo
    exact absurd (hqb.lhs ▸ hR) (hc.not_extend h hp hq hrn).2
  · -- all new rules spell the target
    have hv := (hp.values_of_new hrn).2.trans (hp.values_of_new hqn).2.symm
    exact matches_of_values (fun a => .inl (hc.refl a)) hv

include h hc hp in
theorem lines_promote (ht : ∀ v ∈ target, ∀ n, first ≤ n → inducedName n ≠ v) {r' q' : Rule}
    (hr' : r' ∈ g'.rules) (hq' : q' ∈ g'.rules) (hrs : r'.lhs = g'.start) (hqs : q'.lhs = g'.start)
    {ws : List String} (hrw : Spells g'.rules r'.rhs ws) (hqw : Spells g'.rules q'.rhs ws) :
    Matches (extend R new) r'.rhs q'.rhs := by
  rw [hp.start] at hrs hqs
  obtain ⟨r, hr, hrb⟩ := hp.exists_source_of_name hr' (hrs ▸ h.fresh.start)
  obtain ⟨q, hq, hqb⟩ := hp.exists_source_of_name hq' (hqs ▸ h.fresh.start)
  rw [hrb.lhs] at hrs
  rw [hqb.lhs] at hqs
  rw [hp.spells_iff h.fresh hr hrb] at hrw
  rw [hp.spells_iff h.fresh hq hqb] at hqw
  exact hc.matches_promote ht (iff_of_true hrs hqs) (hc.lines r hr q hq hrs hqs ws hrw hqw) hrb hqb

include h hc hp in
theorem promote (hfirst : first ≤ g.supply.nextName)
    (ht : ∀ v ∈ target, ∀ n, first ≤ n → inducedName n ≠ v) :
    g'.Copies first (extend R new) where
  refl := fun a => .inl (hc.refl a)
  recent := by
    have hmono : ∀ {a}, g.Recent first a → g'.Recent first a := by
      rintro a ⟨n, hn, hlt, he⟩
      exact ⟨n, hn, by rw [hp.nextName]; omega, he⟩
    have hnew : ∀ {a}, a ∈ new.map Rule.lhs → g'.Recent first a := by
      intro a ha
      obtain ⟨q, hq, rfl⟩ := List.mem_map.1 ha
      obtain ⟨n, hn, hlt, he⟩ := hp.name_of_new hq
      exact ⟨n, hfirst.trans hn, hlt, he⟩
    rintro a b (hR | ⟨ha, hb⟩)
    · exact (hc.recent a b hR).imp_right fun ⟨ha, hb⟩ => ⟨hmono ha, hmono hb⟩
    · exact .inr ⟨hnew ha, hnew hb⟩
  rules := fun _ hr _ hq hrs hqs hR => hc.rules_promote h hp ht hr hq hrs hqs hR
  lines := fun _ hr _ hq hrs hqs _ hrw hqw => hc.lines_promote h hp ht hr hq hrs hqs hrw hqw

end

/-- Related sequences unfold alike. -/
theorem unfolds (hc : g.Copies first R) (h : g.Inv) {xs : List Symbol} {f : Forest}
    (hf : Unfolds g.rules xs f) (hx : Kinded xs) : ∀ {ys : List Symbol}, Kinded ys →
    (∀ y ∈ ys, y.terminal = false → ∃ q ∈ g.rules, q.lhs = y.value) → Matches R xs ys →
    Unfolds g.rules ys f := by
  induction hf with
  | nil =>
    rintro _ _ _ ⟨⟩
    exact .nil
  | @terminal s xs f ht _ ih =>
    rintro _ hk hd (_ | @⟨_, y, _, ys, hy, hm⟩)
    have hv : s.value = y.value := by
      refine (hc.recent _ _ hy).resolve_right ?_
      rintro ⟨⟨n, -, -, he⟩, -⟩
      have hs := hx.head
      rw [ht, he, marked_inducedName] at hs
      cases hs
    rw [hv]
    refine .terminal ?_ (ih hx.tail hk.tail (fun z hz => hd z (.tail _ hz)) hm)
    rw [hk.head, ← hv, ← hx.head, ht]
  | @nonterminal s xs f₁ f₂ p ht hp hl _ _ ih₁ ih₂ =>
    rintro _ hk hd (_ | @⟨_, y, _, ys, hy, hm⟩)
    have hmark : marked y.value = marked s.value := by
      rcases hc.recent _ _ hy with he | ⟨⟨m, -, -, he⟩, n, -, -, he'⟩
      · rw [he]
      · rw [he, he', marked_inducedName, marked_inducedName]
    have hty : y.terminal = false := by rw [hk.head, hmark, ← hx.head, ht]
    obtain ⟨q, hq, hql⟩ := hd y List.mem_cons_self hty
    have hmatch : Matches R p.rhs q.rhs :=
      hc.rules p hp q hq (hl ▸ h.ne_start hx.head ht) (hql ▸ h.ne_start hk.head hty)
        (by rwa [hl, hql])
    exact .nonterminal hty hq hql
      (ih₁ (h.kinds p hp) (h.kinds q hq) (h.defined q hq) hmatch)
      (ih₂ hx.tail hk.tail (fun z hz => hd z (.tail _ hz)) hm)

end Copies

end Grammar

end GrammarInduction
