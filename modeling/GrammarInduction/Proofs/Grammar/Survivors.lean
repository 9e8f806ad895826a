import GrammarInduction.Grammar.Deduplicate
import Mathlib.Data.List.Pairwise
import Mathlib.Logic.Function.Iterate

/-!
# What deduplication leaves

Deduplication of any list of rules, whatever their ids and names. It takes rules out and writes
names for names: the rules that survive are some of the rules there were, in order, under one
substitution on right-hand sides, which concerns no string but the names of rules, and the start
name neither as a source nor as a target (`Survive`, `mergeTwins_survive`). What a substitution
leaves alone is thus kept of a rule (`mergeTwins_frame`), and the rest of the grammar stays as it is
(`Grammar.deduplicate_frame`).

A round of merging counts the rules that it takes out, of which there is one at least
(`mergeTwins_count`, `foldl_absorb_lt`). The rounds therefore end (`iterate_mergeRound`), and no
rule has a twin then (`mergeTwins_twinless`), so that nothing is left to be done
(`Grammar.deduplicate_twinless`).
-/

namespace GrammarInduction

/-! ## Renaming -/

/-- What stands for the value `v` after `old` has been renamed to `new`. -/
def renamed (old new v : String) : String := if v = old then new else v

@[simp] theorem renamed_of_ne {old v : String} (new : String) (h : v ≠ old) :
    renamed old new v = v := if_neg h

@[simp] theorem renamed_old (old new : String) : renamed old new old = new := if_pos rfl

@[simp] theorem renamed_self (name v : String) : renamed name name v = v := by
  unfold renamed
  split
  · rename_i h; exact h.symm
  · rfl

/-- To write one of two identified names for the other changes nothing. -/
theorem renamed_congr {σ : String → String} {old new : String} (h : σ new = σ old) (v : String) :
    σ (renamed old new v) = σ v := by
  unfold renamed
  split
  · rename_i hv; rw [hv, h]
  · rfl

/-- The symbol under the new name. -/
def Symbol.renamed (old new : String) (s : Symbol) : Symbol :=
  if s.value = old then { s with value := new } else s

@[simp] theorem Symbol.renamed_value (old new : String) (s : Symbol) :
    (s.renamed old new).value = GrammarInduction.renamed old new s.value := by
  unfold Symbol.renamed GrammarInduction.renamed
  split <;> rfl

@[simp] theorem Symbol.renamed_terminal (old new : String) (s : Symbol) :
    (s.renamed old new).terminal = s.terminal := by
  unfold Symbol.renamed
  split <;> rfl

namespace Rule

theorem rename_rhs (old new : String) (r : Rule) :
    (r.rename old new).rhs = r.rhs.map (Symbol.renamed old new) := rfl

@[simp] theorem rename_lhs (old new : String) (r : Rule) : (r.rename old new).lhs = r.lhs := rfl

@[simp] theorem rename_id (old new : String) (r : Rule) : (r.rename old new).id = r.id := rfl

@[simp] theorem rename_values (old new : String) (r : Rule) :
    (r.rename old new).values = r.values.map (renamed old new) := by
  rw [values, rename_rhs, values, List.map_map, List.map_map]
  exact List.map_congr_left fun s _ => Symbol.renamed_value old new s

theorem rename_self (name : String) (r : Rule) : r.rename name name = r := by
  have h : Symbol.renamed name name = fun s => s := by
    funext s
    unfold Symbol.renamed
    split
    · rename_i h; rw [← h]
    · rfl
  show { r with rhs := r.rhs.map (Symbol.renamed name name) } = r
  rw [h, List.map_id']

/-- The rule with other values. -/
def mapValues (s : String → String) (r : Rule) : Rule :=
  { r with rhs := r.rhs.map fun x => { x with value := s x.value } }

@[simp] theorem mapValues_lhs (s : String → String) (r : Rule) : (r.mapValues s).lhs = r.lhs := rfl

@[simp] theorem mapValues_values (s : String → String) (r : Rule) :
    (r.mapValues s).values = r.values.map s := by
  simp [mapValues, values]

theorem mapValues_id (r : Rule) : r.mapValues (fun v => v) = r :=
  congrArg (fun rhs => { r with rhs }) (List.map_id r.rhs)

theorem mapValues_mapValues (s s' : String → String) (r : Rule) :
    (r.mapValues s).mapValues s' = r.mapValues (s' ∘ s) :=
  congrArg (fun rhs => { r with rhs }) (List.map_map ..)

theorem map_mapValues_mapValues (s s' : String → String) (rules : List Rule) :
    (rules.map (mapValues s)).map (mapValues s') = rules.map (mapValues (s' ∘ s)) := by
  rw [List.map_map]
  exact List.map_congr_left fun r _ => r.mapValues_mapValues s s'

theorem rename_eq_mapValues (old new : String) :
    rename old new = mapValues (GrammarInduction.renamed old new) := by
  funext r
  refine congrArg (fun rhs => { r with rhs }) (List.map_congr_left fun x _ => ?_)
  unfold GrammarInduction.renamed
  split <;> rfl

/-- What renaming keeps of a rule. -/
def frame (r : Rule) : String × Nat × Nat := (r.lhs, r.id, r.rhs.length)

theorem map_frame_mapValues (s : String → String) (rules : List Rule) :
    (rules.map (mapValues s)).map frame = rules.map frame := by
  rw [List.map_map]
  exact List.map_congr_left fun r _ => by simp [frame, mapValues]

theorem map_frame_rename (old new : String) (rules : List Rule) :
    (rules.map (Rule.rename old new)).map frame = rules.map frame := by
  rw [rename_eq_mapValues, map_frame_mapValues]

end Rule

/-- What is a function of frames is kept along with them. -/
theorem sublist_of_frame {rules rules' : List Rule}
    (h : (rules'.map Rule.frame).Sublist (rules.map Rule.frame)) {α : Type}
    (f : String × Nat × Nat → α) :
    (rules'.map fun r => f r.frame).Sublist (rules.map fun r => f r.frame) := by
  have hf := h.map f
  rwa [List.map_map, List.map_map] at hf

/-! ## What deduplication does to any list of rules -/

/-- The name of a twin is written as `keep`, and the first rule with its id is taken out. -/
theorem absorb_rules (keep : String) (state : Nat × List Rule) (t : Rule) :
    (absorb keep state t).2 =
      (state.2.map (Rule.rename t.lhs keep)).eraseP (·.id == t.id) := by
  unfold absorb
  split
  · rename_i h
    rw [h, show Rule.rename keep keep = id from funext (Rule.rename_self keep), List.map_id]
  · rfl

theorem absorb_frame (keep : String) (state : Nat × List Rule) (t : Rule) :
    ((absorb keep state t).2.map Rule.frame).Sublist (state.2.map Rule.frame) := by
  rw [absorb_rules, ← Rule.map_frame_rename t.lhs keep state.2]
  exact (List.eraseP_sublist ..).map _

theorem foldl_absorb_frame (keep : String) : ∀ (ts : List Rule) (state : Nat × List Rule),
    ((ts.foldl (absorb keep) state).2.map Rule.frame).Sublist (state.2.map Rule.frame)
  | [], _ => .refl _
  | t :: ts, state => (foldl_absorb_frame keep ts _).trans (absorb_frame keep state t)

/-- The first rule with twins stands before them. -/
theorem firstTwins_eq_some {start : String} : ∀ {rules : List Rule} {r : Rule} {others : List Rule},
    firstTwins start rules = some (r, others) →
      (r :: others).Sublist rules ∧ ∀ t ∈ others, r.twins start t = true
  | [], _, _, h => by simp [firstTwins] at h
  | p :: rest, r, others, h => by
    unfold firstTwins at h
    split at h
    · obtain ⟨hsub, htw⟩ := firstTwins_eq_some h
      exact ⟨hsub.cons p, htw⟩
    · rename_i q ts hf
      cases h
      rw [← hf]
      exact ⟨List.filter_sublist.cons_cons p, fun t ht => (List.mem_filter.1 ht).2⟩

/-- A name with rules, other than the start name. -/
def OtherName (start : String) (rules : List Rule) (name : String) : Prop :=
  ∃ r ∈ rules, r.lhs ≠ start ∧ r.lhs = name

/-- `rest` are some of `rules` in order, under the substitution `s`, which leaves all strings alone
but names of rules other than the start name, and writes such names for them. -/
structure Survive (start : String) (rules : List Rule) (s : String → String) (rest : List Rule) :
    Prop where
  sublist : rest.Sublist (rules.map (Rule.mapValues s))
  fixed : ∀ v, ¬ OtherName start rules v → s v = v
  target : ∀ v, s v ≠ v → OtherName start rules (s v)

namespace Survive

variable {start : String} {rules rest : List Rule} {s : String → String}

theorem refl (start : String) (rules : List Rule) : Survive start rules id rules where
  sublist := by
    have hmap : rules.map (Rule.mapValues id) = rules := by
      rw [show Rule.mapValues id = id from funext Rule.mapValues_id, List.map_id]
    simpa only [hmap] using List.Sublist.refl rules
  fixed := fun _ _ => rfl
  target := fun _ h => absurd rfl h

theorem exists_of_mem (h : Survive start rules s rest) {r : Rule} (hr : r ∈ rest) :
    ∃ p ∈ rules, p.mapValues s = r := List.mem_map.1 (h.sublist.subset hr)

theorem otherName (h : Survive start rules s rest) {v : String} (hv : OtherName start rest v) :
    OtherName start rules v := by
  obtain ⟨q, hq, hs, rfl⟩ := hv
  obtain ⟨r, hr, rfl⟩ := h.exists_of_mem hq
  exact ⟨r, hr, hs, rfl⟩

theorem trans (h : Survive start rules s rest) {s' : String → String} {rest' : List Rule}
    (h' : Survive start rest s' rest') : Survive start rules (s' ∘ s) rest' where
  sublist := by
    refine h'.sublist.trans ?_
    rw [← Rule.map_mapValues_mapValues]
    exact h.sublist.map _
  fixed := by
    intro v hv
    rw [Function.comp_apply, h.fixed v hv, h'.fixed v fun hv' => hv (h.otherName hv')]
  target := by
    intro v hv
    by_cases hs : s' (s v) = s v
    · rw [Function.comp_apply, hs] at hv ⊢
      exact h.target v hv
    · exact h.otherName (h'.target (s v) hs)

theorem erase (h : Survive start rules s rest) (p : Rule → Bool) :
    Survive start rules s (rest.eraseP p) :=
  ⟨(List.eraseP_sublist ..).trans h.sublist, h.fixed, h.target⟩

/-- Another name is written for a name. -/
theorem rename (h : Survive start rules s rest) {old new : String}
    (hold : OtherName start rules old) (hnew : OtherName start rules new) :
    Survive start rules (renamed old new ∘ s) (rest.map (Rule.rename old new)) where
  sublist := by
    rw [Rule.rename_eq_mapValues, ← Rule.map_mapValues_mapValues]
    exact h.sublist.map _
  fixed := by
    intro v hv
    rw [Function.comp_apply, h.fixed v hv]
    exact renamed_of_ne new fun hvo => hv (hvo ▸ hold)
  target := by
    intro v hv
    by_cases hs : s v = old
    · rwa [Function.comp_apply, hs, renamed_old]
    · rw [Function.comp_apply, renamed_of_ne new hs] at hv ⊢
      exact h.target v hv

/-- `t` goes into the rules of the name `keep`; both names may have lost their rules already. -/
theorem absorb {n : Nat} {keep : String} {t : Rule} (h : Survive start rules s rest)
    (ht : t.lhs ≠ keep → OtherName start rules t.lhs ∧ OtherName start rules keep) :
    ∃ s', Survive start rules s' (absorb keep (n, rest) t).2 := by
  unfold GrammarInduction.absorb
  split
  · exact ⟨_, h.erase _⟩
  · rename_i hne
    obtain ⟨hold, hnew⟩ := ht hne
    exact ⟨_, (h.rename hold hnew).erase _⟩

theorem foldl_absorb {keep : String} : ∀ {others : List Rule} {n : Nat} {rest : List Rule}
    {s : String → String}, Survive start rules s rest →
    (∀ t ∈ others, t.lhs ≠ keep → OtherName start rules t.lhs ∧ OtherName start rules keep) →
    ∃ s', Survive start rules s' (others.foldl (GrammarInduction.absorb keep) (n, rest)).2
  | [], _, _, s, h, _ => ⟨s, h⟩
  | t :: _, n, _, _, h, hothers => by
    obtain ⟨s', h'⟩ := h.absorb (n := n) (hothers t List.mem_cons_self)
    exact h'.foldl_absorb fun u hu => hothers u (.tail _ hu)

end Survive

/-- Twins of different names both have another name than the start name. -/
theorem otherName_of_firstTwins {start : String} {rules : List Rule} {r : Rule}
    {others : List Rule} (h : firstTwins start rules = some (r, others)) :
    ∀ t ∈ others, t.lhs ≠ r.lhs → OtherName start rules t.lhs ∧ OtherName start rules r.lhs := by
  intro t ht hne
  obtain ⟨hsub, htwins⟩ := firstTwins_eq_some h
  have hkind := htwins t ht
  simp only [Rule.twins, Bool.and_eq_true, beq_iff_eq] at hkind
  have hiff : r.lhs = start ↔ t.lhs = start := by rw [← beq_iff_eq, hkind.1, beq_iff_eq]
  have hr : r.lhs ≠ start := fun hr => hne ((hiff.1 hr).trans hr.symm)
  exact ⟨⟨t, hsub.subset (.tail _ ht), mt hiff.2 hr, rfl⟩,
    r, hsub.subset List.mem_cons_self, hr, rfl⟩

/-- The rules that survive are rules from before under one substitution. -/
theorem mergeTwins_survive (start : String) (rules : List Rule) :
    ∃ s, Survive start rules s (mergeTwins start rules).2 := by
  fun_induction mergeTwins start rules with
  | case1 rules => exact ⟨id, .refl start rules⟩
  | case2 rules r others h n rules' heq ih =>
    obtain ⟨s', h'⟩ := ih
    rw [heq] at h'
    obtain ⟨s, hround⟩ :=
      (Survive.refl start rules).foldl_absorb (n := 0) (otherName_of_firstTwins h)
    exact ⟨s' ∘ s, hround.trans h'⟩

/-- The rules that survive keep their names, ids, lengths and order. -/
theorem mergeTwins_frame (start : String) (rules : List Rule) :
    ((mergeTwins start rules).2.map Rule.frame).Sublist (rules.map Rule.frame) := by
  obtain ⟨s, h⟩ := mergeTwins_survive start rules
  have hsub := h.sublist.map Rule.frame
  rwa [Rule.map_frame_mapValues] at hsub

theorem ids_mergeTwins (start : String) (rules : List Rule) :
    ((mergeTwins start rules).2.map Rule.id).Sublist (rules.map Rule.id) :=
  sublist_of_frame (mergeTwins_frame start rules) fun x => x.2.1

theorem ids_lt_mergeTwins {start : String} {rules : List Rule} {n : Nat}
    (h : ∀ r ∈ rules, r.id < n) : ∀ r ∈ (mergeTwins start rules).2, r.id < n := by
  intro r hr
  have hmem := (ids_mergeTwins start rules).subset (List.mem_map_of_mem hr)
  obtain ⟨q, hq, he⟩ := List.mem_map.1 hmem
  exact he ▸ h q hq

theorem foldl_absorb_lt {start : String} {rules : List Rule} {r : Rule} {others : List Rule}
    (h : firstTwins start rules = some (r, others)) :
    (others.foldl (absorb r.lhs) (0, rules)).2.length < rules.length := by
  obtain ⟨q, ts, rfl, hq⟩ := mem_of_firstTwins h
  exact Nat.lt_of_le_of_lt (length_foldl_absorb_le _ ts _) (length_absorb_lt _ hq)

/-- Deduplication without effect is the identity. -/
theorem mergeTwins_eq_or_lt (start : String) (rules : List Rule) :
    (mergeTwins start rules).2 = rules ∨
      (mergeTwins start rules).2.length < rules.length := by
  fun_induction mergeTwins start rules with
  | case1 => exact .inl rfl
  | case2 rules r others h n rules' heq ih =>
    rw [heq] at ih
    have hlt := foldl_absorb_lt h
    rcases ih with ih | ih
    · exact .inr (by simp only at ih; rw [ih]; exact hlt)
    · exact .inr (Nat.lt_trans ih hlt)

/-! ## Rounds -/

/-- The count goes up by what is taken out. -/
theorem absorb_count (keep : String) (state : Nat × List Rule) (t : Rule) :
    (absorb keep state t).1 + (absorb keep state t).2.length = state.1 + state.2.length := by
  have hlen : (if t.lhs = keep then state.2 else state.2.map (Rule.rename t.lhs keep)).length =
      state.2.length := by
    split
    · rfl
    · exact List.length_map ..
  unfold absorb
  generalize (if t.lhs = keep then state.2 else state.2.map (Rule.rename t.lhs keep)) = rules
    at hlen ⊢
  simp only [List.length_eraseP]
  split
  · rename_i hany
    obtain ⟨q, hq, -⟩ := List.any_eq_true.1 hany
    have hpos := List.length_pos_of_mem hq
    omega
  · rw [hlen]

theorem foldl_absorb_count (keep : String) : ∀ (ts : List Rule) (state : Nat × List Rule),
    (ts.foldl (absorb keep) state).1 + (ts.foldl (absorb keep) state).2.length =
      state.1 + state.2.length
  | [], _ => rfl
  | t :: ts, state => (foldl_absorb_count keep ts _).trans (absorb_count keep state t)

/-- Deduplication counts the rules that it takes out. -/
theorem mergeTwins_count (start : String) (rules : List Rule) :
    (mergeTwins start rules).1 + (mergeTwins start rules).2.length = rules.length := by
  fun_induction mergeTwins start rules with
  | case1 => exact Nat.zero_add _
  | case2 rules r others h n rules' heq ih =>
    rw [heq] at ih
    have hround := foldl_absorb_count r.lhs others (0, rules)
    simp only at ih hround ⊢
    omega

/-- One round: the first rule that has twins absorbs them. -/
def mergeRound (start : String) (rules : List Rule) : List Rule :=
  match firstTwins start rules with
  | none => rules
  | some (r, others) => (others.foldl (absorb r.lhs) (0, rules)).2

theorem mergeRound_of_none {start : String} {rules : List Rule}
    (h : firstTwins start rules = none) : mergeRound start rules = rules := by
  rw [mergeRound, h]

theorem mergeRound_of_some {start : String} {rules : List Rule} {r : Rule} {others : List Rule}
    (h : firstTwins start rules = some (r, others)) :
    mergeRound start rules = (others.foldl (absorb r.lhs) (0, rules)).2 := by
  rw [mergeRound, h]

/-- As many rounds as rules are taken out are enough. -/
theorem iterate_mergeRound {start : String} {rules : List Rule} {n : Nat}
    (hn : (mergeTwins start rules).1 ≤ n) :
    (mergeRound start)^[n] rules = (mergeTwins start rules).2 := by
  fun_induction mergeTwins start rules generalizing n with
  | case1 rules h => exact Function.iterate_fixed (mergeRound_of_none h) n
  | case2 rules r others h k rules' heq ih =>
    rw [heq] at ih
    have hround := foldl_absorb_count r.lhs others (0, rules)
    have hlt := foldl_absorb_lt h
    simp only at hn hround ih
    obtain ⟨m, rfl⟩ : ∃ m, n = m + 1 := Nat.exists_eq_succ_of_ne_zero (by omega)
    rw [Function.iterate_succ_apply, mergeRound_of_some h]
    exact ih (by omega)

theorem mergeTwins_of_none {start : String} {rules : List Rule}
    (h : firstTwins start rules = none) : mergeTwins start rules = (0, rules) := by
  rw [mergeTwins]
  split
  · rfl
  · rename_i hsome
    rw [h] at hsome
    cases hsome

theorem firstTwins_mergeTwins (start : String) (rules : List Rule) :
    firstTwins start (mergeTwins start rules).2 = none := by
  fun_induction mergeTwins start rules with
  | case1 rules h => exact h
  | case2 rules r others h n rules' heq ih => rw [heq] at ih; exact ih

theorem twinless_of_firstTwins {start : String} : ∀ {rules : List Rule},
    firstTwins start rules = none → rules.Pairwise fun r q => r.twins start q = false
  | [], _ => .nil
  | r :: rest, h => by
    unfold firstTwins at h
    split at h
    · rename_i hf
      refine .cons (fun q hq => ?_) (twinless_of_firstTwins h)
      have := List.filter_eq_nil_iff.1 hf q hq
      simpa using this
    · cases h

/-- No rule has a twin after deduplication. -/
theorem mergeTwins_twinless (start : String) (rules : List Rule) :
    (mergeTwins start rules).2.Pairwise fun r q => r.twins start q = false :=
  twinless_of_firstTwins (firstTwins_mergeTwins start rules)

/-! ## Grammars -/

namespace Grammar

variable (g : Grammar)

/-- The rules that survive deduplication are rules from before, in order, under one substitution on
right-hand sides, which leaves all strings alone but names of rules other than the start name, and
writes such names for them. All else of the grammar stays. -/
theorem deduplicate_frame : ∃ s : String → String,
    g.deduplicate.2.rules.Sublist (g.rules.map (Rule.mapValues s)) ∧
      (∀ v, (∀ r ∈ g.rules, r.lhs ≠ g.start → r.lhs ≠ v) → s v = v) ∧
      (∀ v, s v ≠ v → ∃ r ∈ g.rules, r.lhs ≠ g.start ∧ r.lhs = s v) ∧
      g.deduplicate.2.start = g.start ∧ g.deduplicate.2.supply = g.supply := by
  obtain ⟨s, h⟩ := mergeTwins_survive g.start g.rules
  refine ⟨s, h.sublist, fun v hv => h.fixed v ?_, h.target, rfl, rfl⟩
  rintro ⟨r, hr, hs, hl⟩
  exact hv r hr hs hl

/-- Deduplication ends after as many rounds as it takes out rules at most. It counts these rules and
leaves no two rules of one kind with the same values, so that doing it again is without effect. -/
theorem deduplicate_twinless :
    (∀ n ≥ g.deduplicate.1, (mergeRound g.start)^[n] g.rules = g.deduplicate.2.rules) ∧
      g.deduplicate.1 + g.deduplicate.2.rules.length = g.rules.length ∧
      g.deduplicate.2.rules.Pairwise
        (fun r q => (r.lhs = g.start ↔ q.lhs = g.start) → r.values ≠ q.values) ∧
      g.deduplicate.2.deduplicate = (0, g.deduplicate.2) := by
  refine ⟨fun n hn => iterate_mergeRound hn, mergeTwins_count g.start g.rules, ?_, ?_⟩
  · refine (mergeTwins_twinless g.start g.rules).imp fun {r q} htwins hkind hvalues => ?_
    have hlhs : (r.lhs == g.start) = (q.lhs == g.start) := by
      rw [Bool.eq_iff_iff, beq_iff_eq, beq_iff_eq, hkind]
    have hkey : r.key = q.key := congrArg joinedKey hvalues
    rw [Rule.twins, hlhs, hkey, beq_self_eq_true, beq_self_eq_true] at htwins
    cases htwins
  · have hagain := mergeTwins_of_none (firstTwins_mergeTwins g.start g.rules)
    show ((mergeTwins g.start (mergeTwins g.start g.rules).2).1,
      { g with rules := (mergeTwins g.start (mergeTwins g.start g.rules).2).2 }) = _
    rw [hagain]
    rfl

end Grammar

end GrammarInduction
