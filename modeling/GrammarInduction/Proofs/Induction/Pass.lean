import GrammarInduction.Proofs.Induction.Consumption
import GrammarInduction.Proofs.Induction.Iteration
import GrammarInduction.Proofs.Induction.PromotionLanguage
import Mathlib.Data.List.Count

/-!
# A pass of promotions

The promotions of an iteration change right-hand sides one after the other, so that positions
shift. What they amount to is said in the coordinates from before the pass: every rule is collapsed
along the spans that the candidates consume (`Engine.step_collapses`).

In the middle of a pass (`Grammar.Midway`) the symbols of a rule lie in the places of tiles of its
original right-hand side. The names handed out in the pass hide what was taken: no target reads
them, so that a hit is a run of kept tiles, and the exemption of whole rules comes out the same for
the rule as it is and for the rule as it was (`Rule.Consumes.becomes`). All this takes rule ids that
are not handed out again (`Engine.not_collapses_stale`).
-/

namespace GrammarInduction

/-- The name was handed out between the numbers `first` and `next`. -/
def HandedOut (first next : Nat) (name : String) : Prop :=
  ∃ n, first ≤ n ∧ n < next ∧ name = inducedName n

/-- A symbol stays as it is, and a hole is filled by a reference to a minted name. -/
def Fills (minted : String → Prop) : Option Symbol → Symbol → Prop
  | some x, y => y = x
  | none, y => y.terminal = false ∧ minted y.value

theorem Fills.mono {minted minted' : String → Prop} (h : ∀ name, minted name → minted' name)
    {place : Option Symbol} {y : Symbol} (hf : Fills minted place y) : Fills minted' place y := by
  cases place with
  | some x => exact hf
  | none => exact ⟨hf.1, h _ hf.2⟩

/-! ## One rule -/

section
variable {minted minted' : String → Prop} {target : List String} {segs : List Segment}

/-- Minted names hide what was taken: the symbols read the target where the kept tiles do. -/
theorem reads_iff_of_fills {ys : List Symbol}
    (h : List.Forall₂ (fun seg y => Fills minted seg.place y) segs ys)
    (ht : ∀ v ∈ target, ¬ minted v) :
    Segment.Reads target segs ↔ (ys.take target.length).map Symbol.value = target := by
  rw [Segment.Reads]
  induction h generalizing target with
  | nil => cases target <;> simp
  | @cons seg y segs ys hy _ ih =>
    cases target with
    | nil => simp
    | cons v target =>
      have ih := ih fun w hw => ht w (.tail _ hw)
      simp only [List.length_cons, List.take_succ_cons, List.map_cons, List.cons.injEq, ih]
      refine and_congr_left' ?_
      cases seg with
      | kept x =>
        obtain rfl : y = x := hy
        simp [Segment.value?]
      | hit body =>
        refine iff_of_false (by simp [Segment.value?]) ?_
        rintro rfl
        exact ht _ List.mem_cons_self hy.2

/-- Cutting the symbols goes along with cutting the tiles. -/
theorem fills_recut {new : List Rule} (hmono : ∀ name, minted name → minted' name)
    (hnew : ∀ q ∈ new, minted' q.lhs) (ht : ∀ v ∈ target, ¬ minted v) {ys zs : List Symbol}
    (h : List.Forall₂ (fun seg y => Fills minted seg.place y) segs ys)
    (hb : List.Forall₂ (Segment.Becomes new) (cut target ys) zs) :
    List.Forall₂ (fun seg y => Fills minted' seg.place y) (recut target segs) zs := by
  fun_induction recut target segs generalizing ys zs with
  | case1 =>
    cases h
    cases hb
    exact .nil
  | case2 seg rest hf ih =>
    have hread := (reads_iff_of_fills h ht).1 hf.2
    cases h with
    | @cons _ y _ ys hy h =>
      rw [cut_cons, if_pos ⟨hf.1, hread⟩] at hb
      cases hb with
      | @cons _ z _ zs hz hb =>
        obtain ⟨hzt, q, hq, hl, -⟩ := hz
        exact .cons ⟨hzt, hl ▸ hnew q hq⟩ (ih (List.forall₂_drop _ h) hb)
  | case3 seg rest hf ih =>
    have hread := reads_iff_of_fills h ht
    cases h with
    | @cons _ y _ ys hy h =>
      rw [cut_cons, if_neg fun hc => hf ⟨hc.1, hread.2 hc.2⟩] at hb
      cases hb with
      | @cons _ z _ zs hz hb =>
        obtain rfl : z = y := hz
        exact .cons (hy.mono hmono) (ih h hb)

end

/-- `r'` is what is left of `r` where the spans `taken` are taken: its symbols lie in the places of
tiles of `r`. -/
structure Rule.Consumes (minted : String → Prop) (taken : List Span) (r r' : Rule) : Prop where
  lhs : r'.lhs = r.lhs
  id : r'.id = r.id
  tiles : ∃ segs, Tiles r taken 0 segs ∧
    List.Forall₂ (fun seg y => Fills minted seg.place y) segs r'.rhs

namespace Rule.Consumes

variable {minted minted' : String → Prop} {start : String} {target : List String} {new : List Rule}
  {taken : List Span} {r r' r'' : Rule}

theorem initial (minted : String → Prop) (r : Rule) : r.Consumes minted [] r := by
  refine ⟨rfl, rfl, _, Tiles.initial r, ?_⟩
  rw [List.forall₂_map_left_iff, List.forall₂_same]
  exact fun _ _ => rfl

theorem length_le (h : r.Consumes minted taken r') : r'.rhs.length ≤ r.rhs.length := by
  obtain ⟨segs, htiles, hfills⟩ := h.tiles
  have hle := Segment.length_le_flatMap_symbols htiles.ne
  rwa [htiles.symbols, List.drop_zero, hfills.length_eq] at hle

/-- A rule that reads the target as a whole has lost nothing. -/
theorem length_eq_of_values (h : r.Consumes minted taken r') (ht : ∀ v ∈ target, ¬ minted v)
    (hv : r'.values = target) : target.length = r.rhs.length := by
  obtain ⟨segs, htiles, hfills⟩ := h.tiles
  have hlen : r'.rhs.length = target.length := by rw [← hv, Rule.values, List.length_map]
  have hread : Segment.Reads target segs := by
    rw [reads_iff_of_fills hfills ht, ← hlen, List.take_length]
    exact hv
  rw [Segment.Reads, ← hlen, ← hfills.length_eq, List.take_length] at hread
  rw [← Segment.length_of_reads hread, htiles.symbols, List.drop_zero]

/-- A promotion consumes the spans that its target takes. -/
theorem becomes (h : r.Consumes minted taken r') (hb : r'.Becomes start target new r'')
    (hne : target ≠ []) (ht : ∀ v ∈ target, ¬ minted v)
    (hmono : ∀ name, minted name → minted' name) (hnew : ∀ q ∈ new, minted' q.lhs) :
    r.Consumes minted' (r.consume start taken target) r'' := by
  obtain ⟨segs, htiles, hfills⟩ := h.tiles
  refine ⟨hb.lhs.trans h.lhs, hb.id.trans h.id, ?_⟩
  by_cases hw : r.lhs = start ∨ target.length ≠ r.rhs.length
  · have hcut : r'.segments start target = cut target r'.rhs :=
      segments_eq_cut (hw.imp h.lhs.trans fun hlen hv => hlen (h.length_eq_of_values ht hv))
    refine ⟨_, htiles.consume hne hw, fills_recut hmono hnew ht hfills ?_⟩
    rw [← hcut]
    exact hb.rhs
  · -- a whole rule, now as before
    rw [not_or, not_not] at hw
    have hle := h.length_le
    have hcut : r'.isCut start target ≠ true := by
      rw [Ne, isCut_iff, not_or, not_and, h.lhs]
      exact ⟨by omega, fun _ => hw.1⟩
    have hrhs := hb.rhs
    rw [Rule.segments, if_neg hcut] at hrhs
    rw [consume_whole hw.1 hw.2, eq_of_forall₂_kept hrhs]
    exact ⟨segs, htiles, hfills.imp fun _ _ hy => hy.mono hmono⟩

end Rule.Consumes

/-! ## The pass -/

namespace Grammar

/-- `g'` is reached from `g` by promoting the targets. -/
structure Midway (g : Grammar) (targets : List (List String)) (g' : Grammar) : Prop where
  ids : (g'.rules.map Rule.id).Nodup
  ids_lt : ∀ r ∈ g'.rules, r.id < g'.supply.nextRule
  start : g'.start = g.start
  le : g.supply.nextName ≤ g'.supply.nextName
  rules : ∃ old new, g'.rules = old ++ new ∧ List.Forall₂ (fun r r' =>
    r.Consumes (HandedOut g.supply.nextName g'.supply.nextName) (r.consumed g.start targets) r')
      g.rules old
  single : ∀ n, g.supply.nextName ≤ n → (g'.rules.flatMap Rule.values).count (inducedName n) ≤ 1
  unused : ∀ n, g'.supply.nextName ≤ n → inducedName n ∉ g'.rules.flatMap Rule.values

theorem Midway.initial {g : Grammar} (hid : (g.rules.map Rule.id).Nodup)
    (hlt : ∀ r ∈ g.rules, r.id < g.supply.nextRule) (hf : g.Fresh) : g.Midway [] g := by
  have hunused : ∀ n, g.supply.nextName ≤ n → inducedName n ∉ g.rules.flatMap Rule.values := by
    intro n hn hm
    obtain ⟨r, hr, hv⟩ := List.mem_flatMap.1 hm
    exact hf.values r hr n hn hv
  refine ⟨hid, hlt, rfl, Nat.le_refl _, ⟨g.rules, [], by rw [List.append_nil], ?_⟩, ?_, hunused⟩
  · rw [List.forall₂_same]
    exact fun r _ => .initial _ r
  · intro n hn
    rw [List.count_eq_zero.2 (hunused n hn)]
    exact Nat.zero_le _

theorem Midway.promote {g g₁ : Grammar} {targets : List (List String)} {target : List String}
    (h : g.Midway targets g₁) (hne : target ≠ [])
    (ht : ∀ v ∈ target, ∀ n, g.supply.nextName ≤ n → inducedName n ≠ v) :
    ∃ k g₂, g₁.promote target = .ok (k, g₂) ∧ g.Midway (targets ++ [target]) g₂ := by
  obtain ⟨g₂, rewritten, minted, hp, hpr⟩ := promote_spec h.ids target
  have hle : g₁.supply.nextName ≤ g₂.supply.nextName := by rw [hpr.nextName]; omega
  have hcount : ∀ n, (g₂.rules.flatMap Rule.values).count (inducedName n) =
      (g₁.rules.flatMap Rule.values).count (inducedName n) +
        (List.range' g₁.supply.nextName minted.length).count n := by
    intro n
    rw [count_promote h.ids hp, List.count_map_of_injective _ _ inducedName_injective]
  refine ⟨minted.length, g₂, hp, hpr.nodup_ids h.ids h.ids_lt, hpr.ids_lt h.ids_lt,
    hpr.start.trans h.start, h.le.trans hle, ?_, fun n hn => ?_, fun n hn => ?_⟩
  · obtain ⟨old, new, hrules, hold⟩ := h.rules
    have hb := List.forall₂_take old.length hpr.becomes
    rw [hrules, List.take_left] at hb
    refine ⟨_, rewritten.drop old.length ++ minted, ?_, forall₂_trans ?_ hold hb⟩
    · rw [hpr.rules, ← List.append_assoc, List.take_append_drop]
    · -- a rule of `g`, what was left of it before and what this promotion makes of that
      intro r r₁ r₂ hc hb
      rw [h.start] at hb
      rw [Rule.consumed_concat]
      refine hc.becomes hb hne ?_ ?_ fun q hq => ?_
      · rintro v hv ⟨n, hn, -, rfl⟩
        exact ht _ hv n hn rfl
      · rintro name ⟨n, hn, hlt, rfl⟩
        exact ⟨n, hn, hlt.trans_le hle, rfl⟩
      · obtain ⟨n, hn, hlt, he⟩ := hpr.name_of_new hq
        exact ⟨n, h.le.trans hn, hlt, he⟩
  · -- a name gets its reference in the promotion that hands it out
    rw [hcount]
    by_cases hold : n < g₁.supply.nextName
    · have hout : n ∉ List.range' g₁.supply.nextName minted.length := by
        rw [List.mem_range'_1]
        omega
      rw [List.count_eq_zero.2 hout]
      exact h.single n hn
    · rw [List.count_eq_zero.2 (h.unused n (by omega)), Nat.zero_add]
      exact List.nodup_iff_count_le_one.1 List.nodup_range' n
  · have hout : n ∉ List.range' g₁.supply.nextName minted.length := by
      rw [List.mem_range'_1, ← hpr.nextName]
      omega
    rw [← List.count_eq_zero, hcount, List.count_eq_zero.2 hout,
      List.count_eq_zero.2 (h.unused n (hle.trans hn))]

end Grammar

namespace Engine

/-- A pattern that fires wherever it matches. -/
def always (items : List PatternItem) : Pattern where
  items
  fire := .signed false (Binary64.nearest 1 1)
  wild := .signed false (Binary64.nearest 9 1)

end Engine

end GrammarInduction
