import GrammarInduction.Proofs.Grammar.Editing
import GrammarInduction.Proofs.Induction.Iteration

/-!
# Counting rules

An engine has the rules that it began with and those that it has induced, less those that it has
merged (`Engine.Balanced`). This takes no condition on ids. A rule that a promotion changes keeps
its id, so that a rule of this id is stored when it is put back, though with repeated ids it may be
another one; putting a rule back therefore succeeds, and as many rules are stored as before
(`Grammar.exists_replaceRule`, `Grammar.promote_counts`). Every iteration then succeeds and keeps
the balance (`Engine.Balanced.step`), and so do calls in any order (`Engine.balanced_of_calls`).
-/

namespace GrammarInduction

namespace Grammar

/-! ## Promotions -/

/-- A rule with the id of a stored rule can be put in, and the ids stay as they are. -/
theorem exists_replaceRule {g : Grammar} {r : Rule} (h : r.id ∈ g.rules.map Rule.id) :
    ∃ q g', g.replaceRule r = .ok (q, g') ∧ g'.rules.map Rule.id = g.rules.map Rule.id := by
  obtain ⟨p, hp, hid⟩ := List.mem_map.1 h
  rcases g.replaceRule_cases r with ⟨pre, q, rest, hrules, hr, hq⟩ | ⟨hno, -⟩
  · refine ⟨q, _, hr, ?_⟩
    have hq : q.id = r.id := hq.resolve_right fun h => h.1 p hp hid
    rw [hrules, List.map_append, List.map_append, List.map_cons, List.map_cons, hq]
  · exact absurd hid (hno p hp).1

/-- The changed rules have ids of rules there were. -/
theorem id_of_mem_promoteIn {start : String} {target : List String} {q : Rule} :
    ∀ {rules : List Rule} {s : Supply}, q ∈ (s.promoteIn start target rules).1.1 →
      q.id ∈ rules.map Rule.id
  | [], _, h => by cases h
  | r :: rest, s, h => by
    rw [promoteIn_cons] at h
    rw [List.map_cons, List.mem_cons]
    split at h
    · simp only at h
      split at h
      · exact .inr (id_of_mem_promoteIn h)
      · rcases List.mem_cons.1 h with rfl | h
        · exact .inl rfl
        · exact .inr (id_of_mem_promoteIn h)
    · exact .inr (id_of_mem_promoteIn h)

/-- A promotion succeeds, whatever the ids are, and counts the rules that it adds. -/
theorem promote_counts (g : Grammar) (target : List String) :
    ∃ n g', g.promote target = .ok (n, g') ∧ g'.rules.length = g.rules.length + n := by
  let changes := g.supply.promoteIn g.start target g.rules
  obtain ⟨g₁, hput, hids⟩ := exists_foldlM
    (P := fun h : Grammar => h.rules.map Rule.id = g.rules.map Rule.id)
    (f := fun h r => (h.replaceRule r).map (·.2)) (l := changes.1.1)
    (b := { g with supply := changes.2 })
    (fun r hr h hids => by
      obtain ⟨q, h', hput, hids'⟩ := exists_replaceRule (hids ▸ id_of_mem_promoteIn hr)
      exact ⟨h', by rw [hput]; rfl, hids'.trans hids⟩)
    rfl
  have hlength : g₁.rules.length = g.rules.length := by simpa using congrArg List.length hids
  refine ⟨changes.1.2.length, changes.1.2.foldl pushRule g₁, ?_, ?_⟩
  · show (changes.1.1.foldlM _ _ >>= _) = _
    rw [hput]
    rfl
  · rw [foldl_pushRule_rules, List.length_append, hlength]

end Grammar

namespace Engine

variable {e : Engine} {initial : Nat}

theorem promoteAll_counts : ∀ (cs : List Candidate) (g : Grammar),
    ∃ n g', promoteAll g cs = .ok (n, g') ∧ g'.rules.length = g.rules.length + n
  | [], g => ⟨0, g, rfl, rfl⟩
  | c :: cs, g => by
    obtain ⟨k, g₁, hp, hk⟩ := g.promote_counts c.values
    obtain ⟨n, g', hall, hn⟩ := promoteAll_counts cs g₁
    exact ⟨k + n, g', promoteAll_cons hp hall, by omega⟩

/-! ## Calls -/

/-- A call on an engine: one iteration, or a run that is looked at when it has ended or has taken
`budget` iterations. -/
inductive Call where
  | step
  | run (budget : Nat)

/-- The engine after a call. -/
def call (e : Engine) : Call → Except GrammarError Engine
  | .step => e.step.map Prod.snd
  | .run budget => (runWithin budget e).map Prod.snd

section
variable {P : Engine → Prop}
  (hstep : ∀ {e}, P e → ∃ changed e', e.step = .ok (changed, e') ∧ P e')
include hstep

/-- A run succeeds and keeps what each iteration keeps. -/
theorem runWithin_induct : ∀ (budget : Nat) {e : Engine}, P e →
    ∃ outcome e', runWithin budget e = .ok (outcome, e') ∧ P e'
  | 0, e, h => ⟨none, e, rfl, h⟩
  | budget + 1, e, h => by
    obtain ⟨changed, e₁, hs, h₁⟩ := hstep h
    obtain ⟨outcome, e', hrun, h'⟩ := runWithin_induct budget h₁
    simp only [runWithin, hs, bind, Except.bind]
    split
    · exact ⟨some .converged, e₁, rfl, h₁⟩
    · split
      · exact ⟨some .maxIterations, e₁, rfl, h₁⟩
      · exact ⟨outcome, e', hrun, h'⟩

/-- A call succeeds and keeps what each iteration keeps. -/
theorem call_induct (c : Call) {e : Engine} (h : P e) : ∃ e', e.call c = .ok e' ∧ P e' := by
  cases c with
  | step =>
    obtain ⟨changed, e', hs, h'⟩ := hstep h
    exact ⟨e', by rw [call, hs]; rfl, h'⟩
  | run budget =>
    obtain ⟨outcome, e', hrun, h'⟩ := runWithin_induct hstep budget h
    exact ⟨e', by rw [call, hrun]; rfl, h'⟩

end

/-! ## The balance -/

/-- The rules there are and those that were merged make up the `initial` ones and those that were
induced. -/
def Balanced (initial : Nat) (e : Engine) : Prop :=
  e.grammar.rules.length + e.stats.merged = initial + e.stats.induced

/-- An iteration succeeds and counts what it adds and what it takes out. -/
theorem Balanced.step (h : e.Balanced initial) :
    ∃ changed e', e.step = .ok (changed, e') ∧ e'.Balanced initial := by
  obtain ⟨n, g, hall, hn⟩ := promoteAll_counts e.fired e.grammar
  refine ⟨_, _, step_eq_ok hall, ?_⟩
  have hmerged : g.deduplicate.1 + g.deduplicate.2.rules.length = g.rules.length :=
    mergeTwins_count g.start g.rules
  unfold Balanced at *
  simp only
  omega

/-- No call on a new engine fails, and after any calls, as in the middle of a run, it has its first
rules and those that it has induced, less those that it has merged. -/
theorem balanced_of_calls (grammar : Grammar) (patterns : List Pattern) (config : Config)
    (calls : List Call) :
    ∃ e, calls.foldlM call { grammar, patterns, config } = .ok e ∧
      e.grammar.rules.length + e.stats.merged = grammar.rules.length + e.stats.induced :=
  exists_foldlM (fun c _ _ h => call_induct Balanced.step c h) (Nat.add_zero _)

end Engine

end GrammarInduction
