import GrammarInduction.Grammar.Basic

/-!
# Merging equal rules

Two rules are twins if their right-hand sides have one key and both or neither belong to the start
name. Merging keeps the first of them, writes its name for the names of the others everywhere, and
takes the others out. As renaming can make further rules equal, this goes on until no rule has a
twin; every round takes out a rule at least.
-/

namespace GrammarInduction

/-- Whether two rules may be merged. -/
def Rule.twins (start : String) (r q : Rule) : Bool :=
  (r.lhs == start) == (q.lhs == start) && r.key == q.key

/-- The first rule that has a twin further on, and all of those. -/
def firstTwins (start : String) : List Rule → Option (Rule × List Rule)
  | [] => none
  | r :: rest =>
    match rest.filter (r.twins start) with
    | [] => firstTwins start rest
    | q :: others => some (r, q :: others)

/-- Merges `twin` into the rules of the name `keep`; counts the rules taken out. -/
def absorb (keep : String) (state : Nat × List Rule) (twin : Rule) : Nat × List Rule :=
  let rules :=
    if twin.lhs = keep then state.2 else state.2.map (Rule.rename twin.lhs keep)
  (if rules.any (·.id == twin.id) then state.1 + 1 else state.1, rules.eraseP (·.id == twin.id))

theorem length_absorb_le (keep : String) (state : Nat × List Rule) (twin : Rule) :
    (absorb keep state twin).2.length ≤ state.2.length := by
  unfold absorb
  refine Nat.le_trans (List.length_eraseP_le ..) ?_
  split <;> simp

theorem length_foldl_absorb_le (keep : String) (twins : List Rule) (state : Nat × List Rule) :
    (twins.foldl (absorb keep) state).2.length ≤ state.2.length := by
  induction twins generalizing state with
  | nil => simp
  | cons t ts ih => exact Nat.le_trans (ih _) (length_absorb_le keep state t)

/-- A twin that is stored is taken out. -/
theorem length_absorb_lt (keep : String) {state : Nat × List Rule} {twin : Rule}
    (h : twin ∈ state.2) : (absorb keep state twin).2.length < state.2.length := by
  unfold absorb
  have pos := List.length_pos_of_mem h
  split
  · have := List.length_eraseP_of_mem h (p := (·.id == twin.id)) (by simp)
    simp only [this]
    omega
  · have h' := List.mem_map_of_mem (f := Rule.rename twin.lhs keep) h
    have := List.length_eraseP_of_mem h' (p := (·.id == twin.id)) (by simp [Rule.rename])
    simp only [this, List.length_map]
    omega

theorem mem_of_firstTwins {start : String} {rules : List Rule} {r : Rule} {others : List Rule}
    (h : firstTwins start rules = some (r, others)) : ∃ q ts, others = q :: ts ∧ q ∈ rules := by
  induction rules with
  | nil => simp [firstTwins] at h
  | cons p rest ih =>
    unfold firstTwins at h
    split at h
    · obtain ⟨q, ts, rfl, hq⟩ := ih h
      exact ⟨q, ts, rfl, List.mem_cons_of_mem _ hq⟩
    · rename_i q ts hf
      have hq : q ∈ rest.filter (p.twins start) := by simp [hf]
      cases h
      exact ⟨q, ts, rfl, List.mem_cons_of_mem _ (List.mem_filter.1 hq).1⟩

/-- Merges twins until there are none; counts the rules taken out. -/
def mergeTwins (start : String) (rules : List Rule) : Nat × List Rule :=
  match _h : firstTwins start rules with
  | none => (0, rules)
  | some (r, others) =>
    let (n, rules') := mergeTwins start (others.foldl (absorb r.lhs) (0, rules)).2
    ((others.foldl (absorb r.lhs) (0, rules)).1 + n, rules')
termination_by rules.length
decreasing_by
  obtain ⟨q, ts, rfl, hq⟩ := mem_of_firstTwins _h
  exact Nat.lt_of_le_of_lt (length_foldl_absorb_le _ ts _) (length_absorb_lt _ hq)

namespace Grammar

/-- Merges equal rules; counts the rules taken out. -/
def deduplicate (g : Grammar) : Nat × Grammar :=
  let (n, rules) := mergeTwins g.start g.rules
  (n, { g with rules })

end Grammar

end GrammarInduction
