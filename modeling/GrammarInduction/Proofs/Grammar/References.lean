import GrammarInduction.Proofs.Grammar.Loading
import GrammarInduction.Proofs.Grammar.Survivors
import Mathlib.Data.List.Count

/-!
# References after deduplication

Merging goes by names when it rewrites references and by ids when it takes rules out. A name stays
`Defined`, that is, it has a rule if a non-terminal refers to it, as long as no rule of another name
has the id of one of its rules (`IdsTell`): a name that is not kept loses its references before it
loses a rule (`Defined.foldl_absorb`), and the name that is kept loses one rule at most for each of
its twins, but is not left without any (`count_foldl_absorb`). So every reference still has a rule
after deduplication, or is to a name that shares an id with another one
(`Grammar.references_deduplicate`).
-/

namespace GrammarInduction

/-- The name has a rule, if a non-terminal refers to it. -/
def Defined (rules : List Rule) (name : String) : Prop :=
  ∀ r ∈ rules, ∀ s ∈ r.rhs, s.terminal = false → s.value = name → ∃ q ∈ rules, q.lhs = name

/-- Rules with the id of a twin are of the name if the twin is. -/
def IdsTell (name : String) (rules twins : List Rule) : Prop :=
  ∀ r ∈ rules, ∀ t ∈ twins, r.id = t.id → (r.lhs = name ↔ t.lhs = name)

section
variable {name keep : String} {rules rules' twins twins' : List Rule} {state : Nat × List Rule}
  {t : Rule}

theorem exists_of_frame (h : (rules'.map Rule.frame).Sublist (rules.map Rule.frame)) {r : Rule}
    (hr : r ∈ rules') : ∃ p ∈ rules, p.lhs = r.lhs ∧ p.id = r.id := by
  obtain ⟨p, hp, he⟩ := List.mem_map.1 (h.subset (List.mem_map_of_mem hr))
  exact ⟨p, hp, congrArg Prod.fst he, congrArg (·.2.1) he⟩

theorem IdsTell.of_frame (h : IdsTell name rules twins)
    (hr : (rules'.map Rule.frame).Sublist (rules.map Rule.frame))
    (ht : (twins'.map Rule.frame).Sublist (twins.map Rule.frame)) : IdsTell name rules' twins' := by
  intro r hmem t htmem hid
  obtain ⟨p, hp, hpl, hpi⟩ := exists_of_frame hr hmem
  obtain ⟨u, hu, hul, hui⟩ := exists_of_frame ht htmem
  rw [← hpl, ← hul]
  exact h p hp u hu (by rw [hpi, hid, hui])

/-! ## A name that is not kept -/

/-- A twin takes the references to its name along before a rule is taken out. -/
theorem Defined.absorb (hd : Defined state.2 name) (hne : name ≠ keep)
    (hids : IdsTell name state.2 [t]) : Defined (absorb keep state t).2 name := by
  intro q hq s hs hterm hv
  rw [absorb_rules] at hq ⊢
  obtain ⟨p, hp, rfl⟩ := List.mem_map.1 (List.mem_of_mem_eraseP hq)
  obtain ⟨x, hx, rfl⟩ := List.mem_map.1 (Rule.rename_rhs .. ▸ hs)
  rw [Symbol.renamed_terminal] at hterm
  rw [Symbol.renamed_value, renamed] at hv
  split at hv
  · exact absurd hv.symm hne
  · rename_i hxt
    obtain ⟨r, hr, hl⟩ := hd p hp x hx hterm hv
    have hrt : r.id ≠ t.id := fun hid =>
      hxt (hv.trans ((hids r hr t List.mem_cons_self hid).1 hl).symm)
    refine ⟨r.rename t.lhs keep, ?_, hl⟩
    rw [List.mem_eraseP_of_neg (by simpa using hrt)]
    exact List.mem_map_of_mem hr

theorem Defined.foldl_absorb (hne : name ≠ keep) : ∀ {twins : List Rule} {state : Nat × List Rule},
    Defined state.2 name → IdsTell name state.2 twins →
    Defined (twins.foldl (GrammarInduction.absorb keep) state).2 name
  | [], _, hd, _ => hd
  | t :: twins, state, hd, hids => by
    have hone : IdsTell name state.2 [t] :=
      hids.of_frame (.refl _) ((List.sublist_append_left [t] twins).map _)
    exact (hd.absorb hne hone).foldl_absorb hne
      (hids.of_frame (absorb_frame keep state t) ((List.sublist_cons_self t twins).map _))

/-! ## The name that is kept -/

/-- The name that is kept loses a rule at most, and only to a twin of its own. -/
theorem count_absorb (hids : IdsTell keep state.2 [t]) :
    (state.2.map Rule.lhs).count keep ≤
      ((absorb keep state t).2.map Rule.lhs).count keep + [t.lhs].count keep := by
  have hlhs : (absorb keep state t).2.map Rule.lhs =
      (state.2.eraseP (·.id == t.id)).map Rule.lhs := by
    rw [absorb_rules, List.eraseP_map, List.map_map]
    rfl
  rw [hlhs]
  rcases List.exists_or_eq_self_of_eraseP (·.id == t.id) state.2 with h | ⟨q, l, m, -, hq, h, he⟩
  · rw [h]
    exact Nat.le_add_right _ _
  · have hkeep := hids q (by simp [h]) t List.mem_cons_self (by simpa using hq)
    have hcount : [q.lhs].count keep = [t.lhs].count keep := by
      simp only [List.count_singleton, beq_iff_eq, hkeep]
    rw [he, h, List.map_append, List.map_cons, List.map_append,
      ← List.singleton_append (x := q.lhs)]
    simp only [List.count_append]
    omega

theorem count_foldl_absorb : ∀ {twins : List Rule} {state : Nat × List Rule},
    IdsTell keep state.2 twins → (state.2.map Rule.lhs).count keep ≤
      ((twins.foldl (absorb keep) state).2.map Rule.lhs).count keep +
        (twins.map Rule.lhs).count keep
  | [], _, _ => Nat.le_add_right _ _
  | t :: twins, state, hids => by
    have hone := count_absorb
      (hids.of_frame (.refl _) ((List.sublist_append_left [t] twins).map _))
    have hrest := count_foldl_absorb
      (hids.of_frame (absorb_frame keep state t) ((List.sublist_cons_self t twins).map _))
    rw [List.map_cons, ← List.singleton_append (x := t.lhs), List.count_append, List.foldl_cons]
    omega

/-! ## Deduplication -/

/-- A round of merging leaves the name defined. -/
theorem Defined.round {start : String} {r : Rule} (hd : Defined rules name)
    (hids : IdsTell name rules rules) (h : firstTwins start rules = some (r, twins)) :
    Defined (twins.foldl (GrammarInduction.absorb r.lhs) (0, rules)).2 name := by
  obtain ⟨hsub, -⟩ := firstTwins_eq_some h
  have htwins := hids.of_frame (.refl _) (((List.sublist_cons_self r twins).trans hsub).map _)
  by_cases hkeep : name = r.lhs
  · -- there was one rule more of the name than twins to take it out
    subst hkeep
    have hcount : (rules.map Rule.lhs).count r.lhs ≤ _ :=
      @count_foldl_absorb r.lhs twins (0, rules) htwins
    have hmore := (hsub.map Rule.lhs).count_le r.lhs
    rw [List.map_cons, List.count_cons_self] at hmore
    have hpos : 0 < ((twins.foldl (GrammarInduction.absorb r.lhs) (0, rules)).2.map Rule.lhs).count
        r.lhs := by omega
    obtain ⟨q, hq, hl⟩ := List.mem_map.1 (List.count_pos_iff.1 hpos)
    exact fun _ _ _ _ _ _ => ⟨q, hq, hl⟩
  · exact hd.foldl_absorb hkeep htwins

theorem Defined.mergeTwins (start : String) (hd : Defined rules name)
    (hids : IdsTell name rules rules) :
    Defined (GrammarInduction.mergeTwins start rules).2 name := by
  fun_induction GrammarInduction.mergeTwins start rules with
  | case1 => exact hd
  | case2 rules r others h n rules' heq ih =>
    rw [heq] at ih
    have hframe := foldl_absorb_frame r.lhs others (0, rules)
    exact ih (hd.round hids h) (hids.of_frame hframe hframe)

end

namespace Grammar

/-- Where every reference has a rule, deduplication leaves it one, unless it is to a name with a
rule that has the id of a rule of another name. -/
theorem references_deduplicate (start : String) {rules : List Rule}
    (h : ∀ r ∈ rules, ∀ s ∈ r.rhs, s.terminal = false → ∃ q ∈ rules, q.lhs = s.value) :
    ∀ r ∈ (ofRules start rules).deduplicate.2.rules, ∀ s ∈ r.rhs, s.terminal = false →
      (∃ q ∈ (ofRules start rules).deduplicate.2.rules, q.lhs = s.value) ∨
        ∃ p ∈ rules, ∃ q ∈ rules, p.lhs = s.value ∧ q.lhs ≠ p.lhs ∧ q.id = p.id := by
  intro r hr s hs hterm
  by_cases hids : IdsTell s.value rules rules
  · have hd : Defined rules s.value := fun p hp x hx ht hv => hv ▸ h p hp x hx ht
    rw [← ofRules_rules start rules] at hd hids
    exact .inl (hd.mergeTwins (ofRules start rules).start hids r hr s hs hterm rfl)
  · simp only [IdsTell, not_forall] at hids
    obtain ⟨p, hp, q, hq, hid, hne⟩ := hids
    refine .inr ?_
    by_cases hpl : p.lhs = s.value
    · exact ⟨p, hp, q, hq, hpl, fun hql => hne (by simp [hpl, hql]), hid.symm⟩
    · have hql : q.lhs = s.value := by
        by_contra hql
        exact hne (by simp [hpl, hql])
      exact ⟨q, hq, p, hp, hql, fun hpq => hpl (hpq.trans hql), hid⟩

/-- Rules of one name share an id, and the name absorbs another one, so that two more are merged. -/
def recurring : List Rule :=
  [⟨"S", [⟨"C", false, 0⟩, ⟨"D", false, 1⟩], 0⟩, ⟨"A", [⟨"a", true, 2⟩], 1⟩,
    ⟨"A", [⟨"a", true, 3⟩], 1⟩, ⟨"B", [⟨"a", true, 4⟩], 2⟩, ⟨"C", [⟨"A", false, 5⟩], 3⟩,
    ⟨"D", [⟨"B", false, 6⟩], 4⟩]

theorem references_deduplicate_recurring :
    (∀ r ∈ recurring, ∀ s ∈ r.rhs, s.terminal = false → ∃ q ∈ recurring, q.lhs = s.value) ∧
      (ofRules "S" recurring).deduplicate.1 = 3 ∧
      ∀ r ∈ (ofRules "S" recurring).deduplicate.2.rules, ∀ s ∈ r.rhs, s.terminal = false →
        ∃ q ∈ (ofRules "S" recurring).deduplicate.2.rules, q.lhs = s.value := by
  have hown : ∀ p ∈ recurring, ∀ q ∈ recurring, q.id = p.id → q.lhs = p.lhs := by decide
  refine ⟨by decide, by decide +kernel, fun r hr s hs hterm => ?_⟩
  refine (references_deduplicate "S" (by decide) r hr s hs hterm).resolve_right ?_
  rintro ⟨p, hp, q, hq, -, hne, hid⟩
  exact hne (hown p hp q hq hid)

/-- Rules of two names share an id and read the same. -/
def clashing : List Rule :=
  [⟨"S", [⟨"A", false, 0⟩], 0⟩, ⟨"A", [⟨"a", true, 1⟩], 1⟩, ⟨"B", [⟨"a", true, 2⟩], 1⟩]

/-- The rule that was to be kept is taken out in the place of its twin, and its name is left
without a rule. -/
theorem dangling_deduplicate :
    (∀ r ∈ clashing, ∀ s ∈ r.rhs, s.terminal = false → ∃ q ∈ clashing, q.lhs = s.value) ∧
      ∃ r ∈ (ofRules "S" clashing).deduplicate.2.rules, ∃ s ∈ r.rhs, s.terminal = false ∧
        ∀ q ∈ (ofRules "S" clashing).deduplicate.2.rules, q.lhs ≠ s.value :=
  ⟨by decide, by decide +kernel⟩

end Grammar

end GrammarInduction
