import GrammarInduction.Proofs.Grammar.MintedNames

/-!
# Ids under editing

`Grammar.Keyed`: the ids of the rules are distinct, and none of them will be handed out. Added rules
take the next ids (`Grammar.Adds`), and what removal, renaming and deduplication leave has ids from
before, so that a grammar stays keyed under all edits but one. A replacement puts its own id in the
place of that of a rule of its name, where no rule has its id, and the supply does not go past it.
The grammar is no longer keyed if this id is still to be handed out (`Grammar.Foreign`,
`keyed_edit_iff`), and additions then repeat it (`keyed_iff_additions`).
-/

namespace GrammarInduction

/-- A change of the rules of a grammar. -/
inductive Edit where
  | add (a : Addition)
  | remove (r : Rule)
  | replace (r : Rule)
  | rename (old new : String)
  | deduplicate

/-- The number of rules that are added. -/
def Addition.size : Addition → Nat
  | rule _ _ => 1
  | corpus text => (Corpus.sentences text).length

namespace Grammar

/-- The grammar after an edit; a replacement that fails leaves it as it is. -/
def edit (g : Grammar) : Edit → Grammar
  | .add a => g.plus a
  | .remove r => (g.removeRule r).2
  | .replace r =>
    match g.replaceRule r with
    | .ok (_, g') => g'
    | .error _ => g
  | .rename old new => (g.replaceSymbol old new).2
  | .deduplicate => g.deduplicate.2

/-- Ids are distinct, and none of them will be handed out. -/
structure Keyed (g : Grammar) : Prop where
  ids : (g.rules.map Rule.id).Nodup
  ids_lt : ∀ r ∈ g.rules, r.id < g.supply.nextRule

/-- A replacement that has a rule of its name to replace and an id that is still to be handed
out. -/
def Foreign (g : Grammar) : Edit → Prop
  | .replace r => g.supply.nextRule ≤ r.id ∧ ∃ q ∈ g.rules, q.lhs = r.lhs
  | _ => False

instance (g : Grammar) : DecidablePred g.Foreign
  | .replace _ => inferInstanceAs (Decidable (_ ∧ _))
  | .add _ | .remove _ | .rename _ _ | .deduplicate => inferInstanceAs (Decidable False)

/-! ## Additions -/

/-- `g'` has `k` more rules than `g`, under the next ids. -/
structure Adds (g : Grammar) (k : Nat) (g' : Grammar) : Prop where
  ids : g'.rules.map Rule.id = g.rules.map Rule.id ++ List.range' g.supply.nextRule k
  next : g'.supply.nextRule = g.supply.nextRule + k

theorem Adds.refl (g : Grammar) : g.Adds 0 g := ⟨(List.append_nil _).symm, rfl⟩

theorem Adds.trans {g g' g'' : Grammar} {k k' : Nat} (h : g.Adds k g') (h' : g'.Adds k' g'') :
    g.Adds (k + k') g'' where
  ids := by rw [h'.ids, h.ids, h.next, List.append_assoc, List.range'_append_1]
  next := by rw [h'.next, h.next, Nat.add_assoc]

theorem adds_foldl {α : Type} {f : Grammar → α → Grammar} (size : α → Nat)
    (hf : ∀ (g : Grammar) (a : α), g.Adds (size a) (f g a)) : ∀ (as : List α) (g : Grammar),
      g.Adds (as.map size).sum (as.foldl f g)
  | [], g => .refl g
  | a :: as, g => by
    rw [List.map_cons, List.sum_cons, List.foldl_cons]
    exact (hf g a).trans (adds_foldl size hf as (f g a))

theorem adds_addRule (g : Grammar) (lhs : String) (rhs : List Symbol) :
    g.Adds 1 (g.addRule lhs rhs).2 :=
  ⟨List.map_append, rfl⟩

theorem adds_addSentence (g : Grammar) (ws : List String) : g.Adds 1 (g.addSentence ws) :=
  ⟨List.map_append, rfl⟩

theorem adds_plus (g : Grammar) : ∀ a : Addition, g.Adds a.size (g.plus a)
  | .rule lhs rhs => g.adds_addRule lhs rhs
  | .corpus text => by
    have h := adds_foldl (fun _ => 1) adds_addSentence (Corpus.sentences text) g
    rwa [List.map_const', List.sum_replicate_nat, Nat.mul_one] at h

/-! ## Edits of keyed grammars -/

namespace Keyed

variable {g g' : Grammar}

theorem empty (start : String) : Keyed { start } := ⟨List.nodup_nil, fun _ h => nomatch h⟩

theorem lt_of_mem_ids (h : g.Keyed) {i : Nat} (hi : i ∈ g.rules.map Rule.id) :
    i < g.supply.nextRule := by
  obtain ⟨r, hr, rfl⟩ := List.mem_map.1 hi
  exact h.ids_lt r hr

theorem adds {k : Nat} (h : g.Keyed) (ha : g.Adds k g') : g'.Keyed where
  ids := by
    rw [ha.ids]
    refine h.ids.append List.nodup_range' fun i hi hi' => ?_
    exact Nat.not_le_of_lt (h.lt_of_mem_ids hi) (List.mem_range'_1.1 hi').1
  ids_lt := by
    intro r hr
    have hi := List.mem_map_of_mem (f := Rule.id) hr
    rw [ha.ids] at hi
    rw [ha.next]
    rcases List.mem_append.1 hi with hi | hi
    · exact Nat.lt_add_right k (h.lt_of_mem_ids hi)
    · exact (List.mem_range'_1.1 hi).2

theorem sublist (h : g.Keyed) (hids : (g'.rules.map Rule.id).Sublist (g.rules.map Rule.id))
    (hnext : g'.supply.nextRule = g.supply.nextRule) : g'.Keyed where
  ids := h.ids.sublist hids
  ids_lt := fun _ hr => hnext ▸ h.lt_of_mem_ids (hids.subset (List.mem_map_of_mem hr))

/-- An id that no rule has is put in the place of another one. -/
theorem exchange {pre rest : List Rule} {q r : Rule} (h : g.Keyed)
    (hrules : g.rules = pre ++ q :: rest) (hnew : ∀ p ∈ g.rules, p.id ≠ r.id)
    (hlt : r.id < g.supply.nextRule) : Keyed { g with rules := pre ++ r :: rest } := by
  have hperm : ((pre ++ r :: rest).map Rule.id).Perm (r.id :: (pre ++ rest).map Rule.id) :=
    List.perm_middle.map Rule.id
  have hsub : ((pre ++ rest).map Rule.id).Sublist (g.rules.map Rule.id) := by
    rw [hrules]
    exact ((List.sublist_cons_self q rest).append_left pre).map Rule.id
  constructor
  · refine hperm.nodup_iff.2 (List.nodup_cons.2 ⟨fun hm => ?_, h.ids.sublist hsub⟩)
    obtain ⟨p, hp, he⟩ := List.mem_map.1 (hsub.subset hm)
    exact hnew p hp he
  · intro p hp
    rcases List.mem_cons.1 (hperm.subset (List.mem_map_of_mem hp)) with hi | hi
    · exact hi ▸ hlt
    · exact h.lt_of_mem_ids (hsub.subset hi)

end Keyed

/-- A grammar is keyed if no additions repeat an id, and in no other case. -/
theorem keyed_iff_additions {g : Grammar} : g.Keyed ↔
    ∀ additions : List Addition, ((additions.foldl plus g).rules.map Rule.id).Nodup := by
  constructor
  · intro h additions
    exact (h.adds (adds_foldl Addition.size adds_plus additions g)).ids
  · intro h
    refine ⟨h [], fun r hr => ?_⟩
    by_contra hge
    -- so many rules are added that the id of `r` comes up
    let additions := List.replicate (r.id + 1 - g.supply.nextRule) (Addition.rule g.start [])
    have hids := (adds_foldl Addition.size adds_plus additions g).ids
    have hnodup := h additions
    rw [List.map_replicate, List.sum_replicate_nat, Addition.size, Nat.mul_one] at hids
    rw [hids] at hnodup
    exact List.disjoint_of_nodup_append hnodup (List.mem_map_of_mem hr)
      (List.mem_range'_1.2 (by omega))

/-! ## Replacements -/

theorem replaceFirst_cases (p : Rule → Bool) (r : Rule) : ∀ rules : List Rule,
    (∃ pre q rest, rules = pre ++ q :: rest ∧ p q = true ∧
      replaceFirst p r rules = some (q, pre ++ r :: rest)) ∨
    (∀ q ∈ rules, p q = false) ∧ replaceFirst p r rules = none
  | [] => .inr ⟨List.forall_mem_nil _, rfl⟩
  | x :: rules => by
    by_cases hx : p x = true
    · exact .inl ⟨[], x, rules, rfl, hx, by rw [replaceFirst, if_pos hx, List.nil_append]⟩
    · rcases replaceFirst_cases p r rules with ⟨pre, q, rest, rfl, hq, h⟩ | ⟨hno, h⟩
      · refine .inl ⟨x :: pre, q, rest, rfl, hq, ?_⟩
        rw [replaceFirst, if_neg hx, h]
        rfl
      · refine .inr ⟨List.forall_mem_cons.2 ⟨Bool.eq_false_iff.2 hx, hno⟩, ?_⟩
        rw [replaceFirst, if_neg hx, h]
        rfl

/-- The rule that is replaced has the id of the replacement or, where no rule has it, its name. -/
theorem replaceRule_cases (g : Grammar) (r : Rule) :
    (∃ pre q rest, g.rules = pre ++ q :: rest ∧
      g.replaceRule r = .ok (q, { g with rules := pre ++ r :: rest }) ∧
      (q.id = r.id ∨ (∀ p ∈ g.rules, p.id ≠ r.id) ∧ q.lhs = r.lhs)) ∨
    (∀ p ∈ g.rules, p.id ≠ r.id ∧ p.lhs ≠ r.lhs) ∧
      g.replaceRule r = .error (.noReplaceTarget r.lhs) := by
  unfold replaceRule
  rcases replaceFirst_cases (·.id == r.id) r g.rules with ⟨pre, q, rest, hrules, hq, h⟩ | ⟨hid, h⟩
  · exact .inl ⟨pre, q, rest, hrules, by rw [h]; rfl, .inl (eq_of_beq hq)⟩
  · have hid : ∀ p ∈ g.rules, p.id ≠ r.id := fun p hp => ne_of_beq_false (hid p hp)
    rcases replaceFirst_cases (·.lhs == r.lhs) r g.rules with
      ⟨pre, q, rest, hrules, hq, h'⟩ | ⟨hlhs, h'⟩
    · exact .inl ⟨pre, q, rest, hrules, by rw [h, h']; rfl, .inr ⟨hid, eq_of_beq hq⟩⟩
    · exact .inr ⟨fun p hp => ⟨hid p hp, ne_of_beq_false (hlhs p hp)⟩, by rw [h, h']; rfl⟩

theorem keyed_replace_iff {g : Grammar} (h : g.Keyed) (r : Rule) :
    (g.edit (.replace r)).Keyed ↔ ¬ g.Foreign (.replace r) := by
  rcases g.replaceRule_cases r with ⟨pre, q, rest, hrules, hr, hq⟩ | ⟨hno, hr⟩
  · have hedit : g.edit (.replace r) = { g with rules := pre ++ r :: rest } := by rw [edit, hr]
    have hmem : q ∈ g.rules := hrules ▸ List.mem_append_right pre List.mem_cons_self
    rw [hedit]
    rcases hq with hq | ⟨hid, hlhs⟩
    -- an id that is stored is no longer to be handed out
    · have hids : (pre ++ r :: rest).map Rule.id = g.rules.map Rule.id := by
        rw [hrules, List.map_append, List.map_append, List.map_cons, List.map_cons, hq]
      refine iff_of_true (h.sublist (hids ▸ .refl _) rfl) fun hf => ?_
      exact Nat.not_le_of_lt (h.ids_lt q hmem) (hq ▸ hf.1)
    -- by its name, the replacement comes in with an id that nothing is known of
    · constructor
      · intro hk hf
        exact Nat.not_le_of_lt (hk.ids_lt r (by simp)) hf.1
      · intro hf
        exact h.exchange hrules hid (Nat.lt_of_not_le fun hle => hf ⟨hle, q, hmem, hlhs⟩)
  · have hedit : g.edit (.replace r) = g := by rw [edit, hr]
    rw [hedit]
    exact iff_of_true h fun ⟨_, q, hq, hlhs⟩ => (hno q hq).2 hlhs

/-! ## Histories -/

/-- A grammar stays keyed under all edits but foreign ones. -/
theorem keyed_edit_iff {g : Grammar} (h : g.Keyed) (e : Edit) :
    (g.edit e).Keyed ↔ ¬ g.Foreign e := by
  cases e with
  | add a => exact iff_of_true (h.adds (g.adds_plus a)) not_false
  | remove r => exact iff_of_true (h.sublist (List.eraseP_sublist.map Rule.id) rfl) not_false
  | replace r => exact keyed_replace_iff h r
  | rename old new =>
    have hids : (g.rules.map (Rule.rename old new)).map Rule.id = g.rules.map Rule.id := by
      rw [List.map_map]
      rfl
    exact iff_of_true (h.sublist (hids ▸ .refl _) rfl) not_false
  | deduplicate => exact iff_of_true (h.sublist (ids_mergeTwins g.start g.rules) rfl) not_false

/-- No edit is foreign when its turn comes. -/
def Native (g : Grammar) : List Edit → Prop
  | [] => True
  | e :: edits => ¬ g.Foreign e ∧ Native (g.edit e) edits

instance decidableNative : ∀ (g : Grammar) (edits : List Edit), Decidable (g.Native edits)
  | _, [] => inferInstanceAs (Decidable True)
  | g, e :: edits =>
    have := decidableNative (g.edit e) edits
    inferInstanceAs (Decidable (_ ∧ _))

theorem Keyed.foldl_edit : ∀ {edits : List Edit} {g : Grammar}, g.Keyed → g.Native edits →
    (edits.foldl edit g).Keyed
  | [], _, h, _ => h
  | e :: _, _, h, hn => ((keyed_edit_iff h e).2 hn.1).foldl_edit hn.2

/-- Rules have distinct ids whatever the edits, if none of them has been foreign. Another edit may
then be followed by any additions without repeating an id if it is not foreign, and in no other
case. -/
theorem nodup_ids_of_edits {start : String} {edits : List Edit} (h : Native { start } edits) :
    ((edits.foldl edit { start }).rules.map Rule.id).Nodup ∧
      ∀ e : Edit, (∀ additions : List Addition, ((additions.foldl plus
        ((edits.foldl edit { start }).edit e)).rules.map Rule.id).Nodup) ↔
          ¬ (edits.foldl edit { start }).Foreign e := by
  have hk := (Keyed.empty start).foldl_edit h
  refine ⟨hk.ids, fun e => ?_⟩
  rw [← keyed_iff_additions, keyed_edit_iff hk]

/-- A rule gets back the id of one that has been removed. -/
def recycling : List Edit :=
  [.add (.rule "X" [⟨"a", true, 0⟩]), .add (.rule "Y" [⟨"b", true, 1⟩]),
    .remove ⟨"X", [⟨"a", true, 0⟩], 7⟩, .replace ⟨"Y", [⟨"c", true, 2⟩], 0⟩,
    .replace ⟨"Z", [], 5⟩, .rename "c" "b", .add (.corpus "a b."), .deduplicate]

theorem nodup_ids_of_edits_recycling :
    Native { start := "S" } recycling ∧
      ((recycling.foldl edit { start := "S" }).rules.map Rule.id).Nodup ∧
      ∀ e : Edit, (∀ additions : List Addition, ((additions.foldl plus
        ((recycling.foldl edit { start := "S" }).edit e)).rules.map Rule.id).Nodup) ↔
          ¬ (recycling.foldl edit { start := "S" }).Foreign e :=
  have h : Native { start := "S" } recycling := by decide
  ⟨h, nodup_ids_of_edits h⟩

/-- A replacement brings the next id in, which is then handed out to the next rule. -/
theorem not_nodup_ids_of_edits :
    ¬ ∀ (start : String) (edits : List Edit),
      ((edits.foldl edit { start }).rules.map Rule.id).Nodup := by
  intro h
  have hids := h "S" [.add (.rule "X" [⟨"a", true, 0⟩]), .replace ⟨"X", [⟨"b", true, 1⟩], 1⟩,
    .add (.rule "Y" [⟨"c", true, 1⟩])]
  revert hids
  decide

end Grammar

end GrammarInduction
