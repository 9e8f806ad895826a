import GrammarInduction.Proofs.Induction.Renaming
import GrammarInduction.Proofs.Induction.SymbolIds

/-!
# Saving and reloading

A grammar that is loaded from the rules of another one goes on with ids and names just past those in
use (`Grammar.supply_ofRules_le_iff`), so that it hands out again what rules merged long ago have
had. `Renaming.rewinding` takes what the one grammar still hands out to what the other one does and
keeps what is in use. As no reference to a merged rule is left, the reloaded grammar is the image of
the other (`Grammar.image_ofRules`), and further iterations report the same and lead to the same
rules up to ids and induced names (`Engine.trace_reloaded`).
-/

namespace GrammarInduction

/-! ## Rewinding -/

/-- Numbers from `n` on move down to `n'` and on. -/
def rewind (n n' i : Nat) : Nat := if i < n then i else i - n + n'

section
variable {n n' : Nat}

theorem rewind_of_lt {i : Nat} (h : i < n) : rewind n n' i = i := if_pos h

theorem rewind_add (i : Nat) : rewind n n' (n + i) = n' + i := by
  rw [rewind, if_neg (by omega)]
  omega

theorem rewind_injOn (_ : n' ≤ n) : Set.InjOn (rewind n n') {i | i < n' ∨ n ≤ i} := by
  intro i (hi : i < n' ∨ n ≤ i) j (hj : j < n' ∨ n ≤ j) hij
  unfold rewind at hij
  split at hij <;> split at hij <;> omega

/-- The induced names of these numbers; other names stay. -/
noncomputable def rewindName (n n' : Nat) : String → String :=
  Function.extend inducedName (fun i => inducedName (rewind n n' i)) id

theorem rewindName_inducedName (i : Nat) :
    rewindName n n' (inducedName i) = inducedName (rewind n n' i) :=
  inducedName_injective.extend_apply _ _ i

theorem rewindName_of_lt {i : Nat} (h : i < n) :
    rewindName n n' (inducedName i) = inducedName i := by
  rw [rewindName_inducedName, rewind_of_lt h]

theorem rewindName_add (i : Nat) :
    rewindName n n' (inducedName (n + i)) = inducedName (n' + i) := by
  rw [rewindName_inducedName, rewind_add]

theorem rewindName_of_unmarked {v : String} (h : marked v = false) : rewindName n n' v = v := by
  apply Function.extend_apply'
  intro ⟨i, hi⟩
  rw [← hi, marked_inducedName] at h
  cases h

theorem marked_rewindName (v : String) : marked (rewindName n n' v) = marked v := by
  by_cases h : ∃ i, inducedName i = v
  · obtain ⟨i, rfl⟩ := h
    rw [rewindName_inducedName, marked_inducedName, marked_inducedName]
  · rw [rewindName, Function.extend_apply' _ _ _ h, id_eq]

end

namespace Renaming

/-- What `s` hands out next becomes what `s'` hands out next; what `s'` has handed out stays. -/
noncomputable def rewinding {s s' : Supply} (h : s' ≤ s) : Renaming where
  name := rewindName s.nextName s'.nextName
  value := rewindName s.nextName s'.nextName
  rule := rewind s.nextRule s'.nextRule
  symbol := rewind s.nextSymbol s'.nextSymbol
  values := {v | '\x1f' ∉ v.toList ∧
    (marked v = true → ∃ i, (i < s'.nextName ∨ s.nextName ≤ i) ∧ v = inducedName i)}
  rules := {i | i < s'.nextRule ∨ s.nextRule ≤ i}
  value_inj := by
    intro v ⟨_, hv⟩ w ⟨_, hw⟩ hvw
    have hmark := congrArg marked hvw
    rw [marked_rewindName, marked_rewindName] at hmark
    cases hm : marked v with
    | false =>
      rwa [rewindName_of_unmarked hm, rewindName_of_unmarked (hmark.symm.trans hm)] at hvw
    | true =>
      obtain ⟨i, hi, rfl⟩ := hv hm
      obtain ⟨j, hj, rfl⟩ := hw (hmark.symm.trans hm)
      rw [rewindName_inducedName, rewindName_inducedName] at hvw
      rw [rewind_injOn h.2.2 hi hj (inducedName_injective hvw)]
  rule_inj := rewind_injOn h.2.1
  marked_value := fun v _ => marked_rewindName v
  name_of_marked := fun _ _ _ => rfl
  separator := by
    intro v ⟨hsep, hv⟩
    refine ⟨hsep, ?_⟩
    cases hm : marked v with
    | false => rwa [rewindName_of_unmarked hm]
    | true =>
      obtain ⟨i, -, rfl⟩ := hv hm
      rw [rewindName_inducedName]
      exact separator_notMem_inducedName _

theorem shifts_rewinding {s s' : Supply} (h : s' ≤ s) : s.Shifts (rewinding h) s' where
  name := rewindName_add
  value := rewindName_add
  rule := rewind_add
  symbol := rewind_add

end Renaming

/-! ## Reloading -/

namespace Grammar

variable {g : Grammar}

/-- Reloading never goes further than the supply has gone. -/
theorem Inv.supply_ofRules_le (h : g.Inv) (hsym : g.PastSymbols) :
    (ofRules g.start g.rules).supply ≤ g.supply := by
  apply supply_ofRules_le_iff.2
  intro q hq
  refine ⟨hsym q hq, h.ids_lt q hq, fun n hn => ?_⟩
  by_cases hs : q.lhs = g.start
  · rw [hs, nameNumber?_of_unmarked h.start] at hn
    cases hn
  · obtain ⟨k, hk, hl⟩ := h.names q hq hs
    rw [hl] at hn
    rwa [eq_of_nameNumber? hn]

section
variable (h : g.Inv) {r : Rule} (hr : r ∈ g.rules) {n' : Nat}
include h hr

/-- The name of a rule is older than those that are rewound. -/
theorem Inv.rewindName_lhs : rewindName g.supply.nextName n' r.lhs = r.lhs := by
  by_cases hs : r.lhs = g.start
  · rw [hs, rewindName_of_unmarked h.start]
  · obtain ⟨n, hn, hl⟩ := h.names r hr hs
    rw [hl, rewindName_of_lt hn]

theorem Inv.rewindName_value {v : String} (hv : v ∈ r.values) :
    rewindName g.supply.nextName n' v = v := by
  cases hm : marked v with
  | false => exact rewindName_of_unmarked hm
  | true =>
    obtain ⟨q, hq, -, rfl⟩ := h.exists_rule hr hv hm
    exact h.rewindName_lhs hq

end

section
variable (h : g.Inv) (hsym : g.PastSymbols)
include h hsym

/-- The reloaded grammar has the same rules, and its supply starts earlier. -/
theorem image_ofRules :
    Image (.rewinding (h.supply_ofRules_le hsym)) g (ofRules g.start g.rules) := by
  have hrule : ∀ r ∈ g.rules, r.under (.rewinding (h.supply_ofRules_le hsym)) = r := by
    intro r hr
    have hrhs : r.rhs.map (Symbol.under (.rewinding (h.supply_ofRules_le hsym))) = r.rhs := by
      refine (List.map_congr_left fun s hs => ?_).trans (List.map_id' _)
      show Symbol.mk (rewindName _ _ s.value) s.terminal (rewind _ _ s.id) = s
      rw [h.rewindName_value hr (List.mem_map_of_mem hs), rewind_of_lt (hsym r hr s hs)]
    show Rule.mk (rewindName _ _ r.lhs) _ (rewind _ _ r.id) = r
    rw [h.rewindName_lhs hr, hrhs, rewind_of_lt (h.ids_lt r hr)]
  refine ⟨ofRules_start .., ?_, Renaming.shifts_rewinding _⟩
  rw [ofRules_rules, List.map_congr_left hrule, List.map_id']

/-- What is in use stays apart from what is still to come, as the counter of names fits a word. -/
theorem covered_ofRules (hword : g.supply.nextName < 2 ^ 64) :
    g.Covered (.rewinding (h.supply_ofRules_le hsym)) := by
  refine h.covered (rewindName_of_unmarked h.start) (fun r hr v hv hm => ?_) (fun r hr hs => ?_)
    (fun r hr => .inl (past_ofRules r hr).rule) (fun n hn => ?_) fun n hn => .inr hn
  · exact ⟨h.values r hr v hv, fun hv => absurd hv (by simp [hm])⟩
  · obtain ⟨n, hn, hl⟩ := h.names r hr hs
    have hread : nameNumber? (inducedName n) = some n := by
      rw [nameNumber?_inducedName, if_pos (by omega)]
    have hn := (@past_ofRules g.start g.rules r hr).name n (hl ▸ hread)
    rw [hl]
    exact ⟨separator_notMem_inducedName n, fun _ => ⟨n, .inl hn, rfl⟩⟩
  · exact ⟨separator_notMem_inducedName n, fun _ => ⟨n, .inr hn, rfl⟩⟩

end

/-! ## The same rules -/

/-- The names with the mark that the rules use. -/
def markedNames (g : Grammar) : Set String :=
  {v | marked v = true ∧ ∃ r ∈ g.rules, v = r.lhs ∨ v ∈ r.values}

/-- The rules of `h` are those of `g` in order, up to ids and to the names with the mark, which `σ`
takes from the one to the other. -/
structure SameUpTo (σ : String → String) (g h : Grammar) : Prop where
  start : h.start = g.start
  names : Set.BijOn σ g.markedNames h.markedNames
  unmarked : ∀ v, marked v = false → σ v = v
  rules : h.rules.map (fun r => (r.lhs, r.shapes)) = g.rules.map fun r =>
    (σ r.lhs, r.rhs.map fun s => (if s.terminal then s.value else σ s.value, s.terminal))

section
variable {s s' : Supply} {hle : s' ≤ s} {h : Grammar}

/-- Names in use are in the domain, where renaming tells them apart. -/
theorem Covered.injOn_markedNames (hc : g.Covered (.rewinding hle)) :
    Set.InjOn (rewindName s.nextName s'.nextName) g.markedNames := by
  apply (Renaming.rewinding hle).value_inj.mono
  intro v ⟨hm, r, hr, hv⟩
  rcases hv with rfl | hv
  · rcases hc.covers.names r hr with hs | ⟨hv, -⟩
    · rw [hs, hc.fixes.unmarked] at hm
      cases hm
    · exact hv
  · exact hc.covers.values r hr v hv

theorem Image.markedNames_eq (hi : Image (.rewinding hle) g h) :
    h.markedNames = rewindName s.nextName s'.nextName '' g.markedNames := by
  ext w
  constructor
  · intro ⟨hm, r', hr', hw⟩
    rw [hi.rules] at hr'
    obtain ⟨r, hr, rfl⟩ := List.mem_map.1 hr'
    rw [Rule.under_lhs, Rule.under_values, List.mem_map] at hw
    rcases hw with rfl | ⟨v, hv, rfl⟩
    · exact ⟨r.lhs, ⟨(marked_rewindName _).symm.trans hm, r, hr, .inl rfl⟩, rfl⟩
    · exact ⟨v, ⟨(marked_rewindName v).symm.trans hm, r, hr, .inr hv⟩, rfl⟩
  · intro ⟨v, ⟨hm, r, hr, hv⟩, hw⟩
    subst hw
    refine ⟨(marked_rewindName v).trans hm, r.under (.rewinding hle), ?_, ?_⟩
    · rw [hi.rules]
      exact List.mem_map_of_mem hr
    · rw [Rule.under_values]
      exact hv.imp (congrArg _) List.mem_map_of_mem

theorem Image.sameUpTo (hi : Image (.rewinding hle) g h) (hc : g.Covered (.rewinding hle))
    (hk : ∀ r ∈ g.rules, Kinded r.rhs) : g.SameUpTo (rewindName s.nextName s'.nextName) h := by
  have hnames := hc.injOn_markedNames.bijOn_image
  rw [← hi.markedNames_eq] at hnames
  refine ⟨hi.start, hnames, fun v hv => rewindName_of_unmarked hv, ?_⟩
  have hshapes : ∀ r ∈ g.rules, (r.under (.rewinding hle)).shapes = r.rhs.map fun x =>
      (if x.terminal then x.value else rewindName s.nextName s'.nextName x.value, x.terminal) := by
    intro r hr
    rw [Rule.shapes, Rule.under_rhs, List.map_map]
    apply List.map_congr_left
    intro x hx
    have hkind := hk r hr x hx
    show (rewindName _ _ x.value, x.terminal) = _
    split
    · rename_i ht
      rw [ht, eq_comm, Bool.not_eq_true'] at hkind
      rw [rewindName_of_unmarked hkind]
    · rfl
  rw [hi.rules, List.map_map]
  apply List.map_congr_left
  intro r hr
  exact congrArg (Prod.mk _) (hshapes r hr)

end

end Grammar

/-! ## Iterations after reloading -/

namespace Engine

/-- Saving and reloading between iterations is invisible: an engine on the reloaded rules reports
what the engine that goes on reports, and has the same rules up to ids and induced names. The
counter of names is a word of 64 bits, in which a name in use is read back. -/
theorem trace_reloaded {e : Engine} {text start : String}
    (he : e.grammar = .ofCorpus text start) (hs : marked start = false) (k : Nat) :
    ∃ e₁, e.iterate k = .ok e₁ ∧ (e₁.grammar.supply.nextName < 2 ^ 64 →
      ∀ d : Engine, d.grammar = .ofRules start e₁.grammar.rules → d.patterns = e.patterns →
        ∃ σ, ∀ j, ∃ results e₂ d₂, e₁.trace j = .ok (results, e₂) ∧
          d.trace j = .ok (results, d₂) ∧ e₂.grammar.SameUpTo σ d₂.grammar) := by
  have hinv := Grammar.inv_ofCorpus text hs
  have hpast := Grammar.PastSymbols.ofCorpus text start
  have hstart := (Grammar.loaded_ofCorpus text start).start
  rw [← he] at hinv hpast hstart
  obtain ⟨e₁, hk, hpat₁, hstart₁, hinv₁, hpast₁⟩ := iterate_induct
    (P := fun e₁ => e₁.patterns = e.patterns ∧ e₁.grammar.start = start ∧ e₁.grammar.Inv ∧
      e₁.grammar.PastSymbols)
    (fun ⟨hpat, hstart, hinv, hpast⟩ => by
      obtain ⟨changed, e', hstep, hpat', hstart', h'⟩ := step_pastSymbols hinv hpast
      exact ⟨changed, e', hstep, hpat'.trans hpat, hstart'.trans hstart, h'⟩)
    k ⟨rfl, hstart, hinv, hpast⟩
  refine ⟨e₁, hk, fun hword d hd hpat => ?_⟩
  have hle := hinv₁.supply_ofRules_le hpast₁
  have hmirror : Mirrors (.rewinding hle) e₁ d := by
    refine ⟨Grammar.covered_ofRules hinv₁ hpast₁ hword, ?_, hpat.trans hpat₁.symm⟩
    rw [hd, ← hstart₁]
    exact Grammar.image_ofRules hinv₁ hpast₁
  refine ⟨(Renaming.rewinding hle).name, fun j => ?_⟩
  obtain ⟨results, e₂, d₂, he₂, hd₂, hmirror₂, -⟩ := hmirror.trace j
  have hinv₂ := inv_of_iterate hinv₁ (iterate_of_trace he₂)
  exact ⟨results, e₂, d₂, he₂, hd₂, hmirror₂.image.sameUpTo hmirror₂.covered hinv₂.kinds⟩

/-- The rules of the first two names are merged, so that the second name is free after reloading
and the third one is next without. -/
def renumbered : Engine where
  grammar := .ofCorpus "a b c d\na b c e" "S"
  patterns := [.pair]

theorem trace_reloaded_renumbered :
    ∃ e₁, renumbered.iterate 1 = .ok e₁ ∧
      ∀ d : Engine, d.grammar = .ofRules "S" e₁.grammar.rules → d.patterns = [.pair] →
        ∃ σ, ∀ j, ∃ results e₂ d₂, e₁.trace j = .ok (results, e₂) ∧
          d.trace j = .ok (results, d₂) ∧ e₂.grammar.SameUpTo σ d₂.grammar := by
  have hall : (promoteAll renumbered.grammar renumbered.fired).toOption.map
      (fun result => result.2.supply.nextName) = some 2 := by
    rw [fired_of_pairwise (by decide +kernel)]
    decide +kernel
  obtain ⟨⟨n, g⟩, hg, hnext⟩ := exists_ok_of_toOption_map hall
  obtain ⟨e', hstep, he', -, -⟩ := step_eq hg
  obtain ⟨e₁, hk, h⟩ := @trace_reloaded renumbered "a b c d\na b c e" "S" rfl (by decide) 1
  have he₁ : e₁ = e' := by
    rw [iterate_succ hstep] at hk
    cases hk
    rfl
  have hword : e₁.grammar.supply.nextName < 2 ^ 64 := by
    have hnext : g.supply.nextName = 2 := hnext
    rw [he₁, he']
    show g.supply.nextName < 2 ^ 64
    omega
  exact ⟨e₁, hk, fun d hd hpat => h hword d hd hpat⟩

end Engine

end GrammarInduction
