import GrammarInduction.Proofs.Induction.RuleCount
import GrammarInduction.Proofs.Induction.Termination
import GrammarInduction.Proofs.Pattern.Program

/-!
# The cap on iterations

`Engine.Run e last outcome e'`: a run from `e` comes to `last`, whose iteration ends it with the
outcome and leaves `e'`. Under a cap every run ends (`Engine.exists_run`), as each iteration is
counted, and so there are runs one after the other without end (`Engine.Runs`).

The cap is compared with all iterations that the engine has counted, not with those of the run, and
only after an iteration. So a run that begins below the cap ends at the cap or below it
(`Engine.Run.iterations_le`), and one that begins at the cap or above it takes one iteration
(`Engine.Run.iterations_eq`). After `n` runs there are `n` iterations at least, and `n - 1` more
than the cap at most (`Engine.Runs.le_iterations`, `Engine.Runs.iterations_le`).
-/

namespace GrammarInduction

namespace Engine

/-! ## Iterations -/

/-- An iteration succeeds and is counted, and it reports whether it has changed the structure. -/
theorem exists_step (e : Engine) :
    ∃ e', e.step = .ok (!e'.grammar.sameStructure e.grammar, e') ∧
      e'.stats.iterations = e.stats.iterations + 1 := by
  obtain ⟨n, g, hall, -⟩ := promoteAll_counts e.fired e.grammar
  exact ⟨{ e with grammar := g.deduplicate.2, records := e.collect, stats := _ },
    step_eq_ok hall, rfl⟩

section
variable {e e' : Engine} {changed : Bool} (h : e.step = .ok (changed, e'))
include h

theorem changed_of_step : changed = !e'.grammar.sameStructure e.grammar := by
  obtain ⟨e₁, hs, -⟩ := exists_step e
  rw [h] at hs
  cases hs
  rfl

theorem iterations_of_step : e'.stats.iterations = e.stats.iterations + 1 := by
  obtain ⟨e₁, hs, hn⟩ := exists_step e
  rw [h] at hs
  cases hs
  exact hn

end

/-! ## One run -/

/-- A run that ends (module doc). -/
inductive Run : (e last : Engine) → Outcome → (e' : Engine) → Prop
  | converges {e e' : Engine} : e.step = .ok (false, e') → Run e e .converged e'
  | stops {e e' : Engine} : e.step = .ok (true, e') → e'.atCap = true → Run e e .maxIterations e'
  | goesOn {e e₁ last e' : Engine} {outcome : Outcome} : e.step = .ok (true, e₁) →
      e₁.atCap = false → Run e₁ last outcome e' → Run e last outcome e'

namespace Run

variable {e last e' : Engine} {outcome : Outcome}

/-- It is what a budget that exceeds the iterations before the last allows. -/
theorem runWithin (h : Run e last outcome e') :
    ∃ m, runWithin m e = .ok (none, last) ∧
      ∀ budget, m < budget → Engine.runWithin budget e = .ok (some outcome, e') := by
  induction h with
  | converges hs =>
    refine ⟨0, rfl, fun budget hb => ?_⟩
    obtain ⟨k, rfl⟩ := Nat.exists_eq_add_of_lt hb
    simp only [Engine.runWithin, hs, bind, Except.bind]
    rfl
  | stops hs hat =>
    refine ⟨0, rfl, fun budget hb => ?_⟩
    obtain ⟨k, rfl⟩ := Nat.exists_eq_add_of_lt hb
    simp only [Engine.runWithin, hs, bind, Except.bind, hat]
    rfl
  | goesOn hs hat _ ih =>
    obtain ⟨m, hlast, hrun⟩ := ih
    refine ⟨m + 1, (runWithin_succ hs hat m).trans hlast, fun budget hb => ?_⟩
    obtain ⟨k, rfl⟩ := Nat.exists_eq_add_of_lt hb
    exact (runWithin_succ hs hat _).trans (hrun _ (by omega))

/-- The outcome is what the last iteration reports. -/
theorem step_last (h : Run e last outcome e') :
    ∃ changed, last.step = .ok (changed, e') ∧ (outcome = .converged ↔ changed = false) := by
  induction h with
  | converges hs => exact ⟨false, hs, by simp⟩
  | stops hs _ => exact ⟨true, hs, by simp⟩
  | goesOn _ _ _ ih => exact ih

theorem converged_iff (h : Run e last outcome e') :
    outcome = .converged ↔ e'.grammar.sameStructure last.grammar = true := by
  obtain ⟨changed, hs, ho⟩ := h.step_last
  rw [ho, changed_of_step hs, Bool.not_eq_false']

theorem config_eq (h : Run e last outcome e') : e'.config = e.config := by
  induction h with
  | converges hs => exact config_of_step hs
  | stops hs _ => exact config_of_step hs
  | goesOn hs _ _ ih => exact ih.trans (config_of_step hs)

theorem iterations_lt (h : Run e last outcome e') : e.stats.iterations < e'.stats.iterations := by
  induction h with
  | converges hs => have := iterations_of_step hs; omega
  | stops hs _ => have := iterations_of_step hs; omega
  | goesOn hs _ _ ih => have := iterations_of_step hs; omega

end Run

/-! ## Under a cap -/

section
variable {e last e' : Engine} {outcome : Outcome}

theorem atCap_eq_false_iff (hcap : 0 < e.config.maxIterations) :
    e.atCap = false ↔ e.stats.iterations < e.config.maxIterations := by
  simp [atCap, hcap]

/-- A run ends, as there are no more than `left` iterations up to the cap. -/
theorem exists_run : ∀ (left : Nat) {e : Engine}, 0 < e.config.maxIterations →
    e.config.maxIterations ≤ e.stats.iterations + left → ∃ last outcome e', Run e last outcome e'
  | left, e, hcap, hleft => by
    obtain ⟨e₁, hs, hn⟩ := exists_step e
    have hconfig := config_of_step hs
    cases hc : !e₁.grammar.sameStructure e.grammar with
    | false => exact ⟨e, _, e₁, .converges (hc ▸ hs)⟩
    | true =>
      rw [hc] at hs
      cases hat : e₁.atCap with
      | true => exact ⟨e, _, e₁, .stops hs hat⟩
      | false =>
        rw [← hconfig] at hcap hleft
        have hlt := (atCap_eq_false_iff hcap).1 hat
        cases left with
        | zero => omega
        | succ left =>
          obtain ⟨last, outcome, e', hrun⟩ := exists_run left hcap (by omega)
          exact ⟨last, outcome, e', .goesOn hs hat hrun⟩

/-- A run that goes on is below the cap, so that its next iteration does not exceed it. -/
theorem Run.iterations_le (h : Run e last outcome e')
    (hlt : e.stats.iterations < e.config.maxIterations) :
    e'.stats.iterations ≤ e.config.maxIterations := by
  induction h with
  | converges hs => rwa [iterations_of_step hs]
  | stops hs _ => rwa [iterations_of_step hs]
  | goesOn hs hat _ ih =>
    rw [← config_of_step hs] at hlt ⊢
    exact ih ((atCap_eq_false_iff (Nat.zero_lt_of_lt hlt)).1 hat)

/-- A run that begins at the cap or above it has iterated before it compares. -/
theorem Run.iterations_eq (h : Run e last outcome e') (hcap : 0 < e.config.maxIterations)
    (hle : e.config.maxIterations ≤ e.stats.iterations) :
    e'.stats.iterations = e.stats.iterations + 1 := by
  cases h with
  | converges hs => exact iterations_of_step hs
  | stops hs _ => exact iterations_of_step hs
  | goesOn hs hat _ =>
    have hn := iterations_of_step hs
    rw [← config_of_step hs] at hcap hle
    have hlt := (atCap_eq_false_iff hcap).1 hat
    omega

end

/-! ## Runs in a row -/

/-- Runs on one engine, each from where the one before has stopped. -/
structure Runs (first : Engine) where
  /-- The engine after so many runs. -/
  state : Nat → Engine
  /-- The engine before the last iteration of a run. -/
  last : Nat → Engine
  outcome : Nat → Outcome
  state_zero : state 0 = first
  run : ∀ i, Run (state i) (last i) (outcome i) (state (i + 1))

theorem exists_runs {e : Engine} (hcap : 0 < e.config.maxIterations) : Nonempty (Runs e) := by
  have hnext : ∀ d : Engine, ∃ last outcome d',
      0 < d.config.maxIterations → Run d last outcome d' := by
    intro d
    by_cases hd : 0 < d.config.maxIterations
    · obtain ⟨last, outcome, d', hrun⟩ := exists_run d.config.maxIterations hd (by omega)
      exact ⟨last, outcome, d', fun _ => hrun⟩
    · exact ⟨d, .converged, d, fun h => absurd h hd⟩
  choose last outcome next hrun using hnext
  have hkept : ∀ i, 0 < (next^[i] e).config.maxIterations := by
    intro i
    induction i with
    | zero => exact hcap
    | succ i ih => rwa [Function.iterate_succ_apply', (hrun _ ih).config_eq]
  exact ⟨{
    state := fun i => next^[i] e
    last := fun i => last (next^[i] e)
    outcome := fun i => outcome (next^[i] e)
    state_zero := rfl
    run := fun i => by rw [Function.iterate_succ_apply']; exact hrun _ (hkept i) }⟩

namespace Runs

variable {e : Engine} (r : Runs e)

theorem config_eq (i : Nat) : (r.state i).config = e.config := by
  induction i with
  | zero => rw [r.state_zero]
  | succ i ih => exact (r.run i).config_eq.trans ih

theorem le_iterations (i : Nat) : e.stats.iterations + i ≤ (r.state i).stats.iterations := by
  induction i with
  | zero => rw [r.state_zero]; rfl
  | succ i ih =>
    have hlt := (r.run i).iterations_lt
    omega

theorem iterations_le (hlt : e.stats.iterations < e.config.maxIterations) (i : Nat) :
    (r.state (i + 1)).stats.iterations ≤ e.config.maxIterations + i := by
  induction i with
  | zero =>
    have hle := (r.run 0).iterations_le (by rwa [r.config_eq, r.state_zero])
    rwa [r.config_eq] at hle
  | succ i ih =>
    have hrun := r.run (i + 1)
    by_cases h : (r.state (i + 1)).stats.iterations < e.config.maxIterations
    · have hle := hrun.iterations_le (by rwa [r.config_eq])
      rw [r.config_eq] at hle
      omega
    · have heq := hrun.iterations_eq (by rw [r.config_eq]; omega) (by rw [r.config_eq]; omega)
      omega

end Runs

/-! ## Built engines -/

/-- A new engine has counted nothing, and has the cap that was asked for. -/
theorem of_build {program : String} {config : Config} {corpus : Option String}
    {grammar : Option Grammar} {e : Engine} (h : build program config corpus grammar = .ok e) :
    e.stats.iterations = 0 ∧ e.config.maxIterations = config.maxIterations := by
  obtain ⟨patterns, -, h⟩ := bind_eq_ok_iff.1 h
  simp only [bind, Except.bind, pure, Except.pure, throw, throwThe, MonadExceptOf.throw] at h
  split_ifs at h
  cases h
  exact ⟨rfl, rfl⟩

/-- Runs in a row on a new engine with a cap: each of them ends, in the same way for every budget
that exceeds its iterations before the last, and it has converged if its last iteration has left the
structure as it was. A run exceeds the cap if and only if it begins at the cap or above it, and then
by one iteration. -/
theorem iterations_of_runs {program : String} {config : Config} {corpus : Option String}
    {grammar : Option Grammar} {e : Engine} (h : build program config corpus grammar = .ok e)
    (hcap : 0 < config.maxIterations) :
    ∃ r : Runs e, ∀ i,
      (∃ m, runWithin m (r.state i) = .ok (none, r.last i) ∧ ∀ budget, m < budget →
        runWithin budget (r.state i) = .ok (some (r.outcome i), r.state (i + 1))) ∧
      (∃ changed, (r.last i).step = .ok (changed, r.state (i + 1))) ∧
      (r.outcome i = .converged ↔
        (r.state (i + 1)).grammar.sameStructure (r.last i).grammar = true) ∧
      ((r.state (i + 1)).stats.iterations ≤ config.maxIterations ↔
        (r.state i).stats.iterations < config.maxIterations) ∧
      (config.maxIterations ≤ (r.state i).stats.iterations →
        (r.state (i + 1)).stats.iterations = (r.state i).stats.iterations + 1) ∧
      i ≤ (r.state i).stats.iterations ∧
      (r.state (i + 1)).stats.iterations ≤ config.maxIterations + i := by
  obtain ⟨hzero, hconfig⟩ := of_build h
  rw [← hconfig] at hcap ⊢
  obtain ⟨r⟩ := exists_runs hcap
  refine ⟨r, fun i => ?_⟩
  have hrun := r.run i
  have hle := hrun.iterations_le
  have heq := hrun.iterations_eq
  have hge := r.le_iterations i
  rw [r.config_eq] at hle heq
  obtain ⟨changed, hlast, -⟩ := hrun.step_last
  refine ⟨hrun.runWithin, ⟨changed, hlast⟩, hrun.converged_iff, ⟨fun hn => ?_, hle⟩, heq hcap,
    by omega, r.iterations_le (by omega) i⟩
  by_contra hlt
  have := heq hcap (by omega)
  omega

/-- Repetitions of two in repetitions of four, and a cap of one. -/
def capped : Engine where
  grammar := Grammar.ofCorpus "a a a a a a a a" defaultStart
  patterns := [⟨[.var "X", .var "X"], .ofNat 2, .ofNat 9⟩]
  config := { maxIterations := 1 }

theorem build_capped :
    build "2, 9, X X" { maxIterations := 1 } (some "a a a a a a a a") none = .ok capped := by
  decide +kernel

/-- Every run adds one iteration. -/
theorem iterations_of_runs_capped :
    build "2, 9, X X" { maxIterations := 1 } (some "a a a a a a a a") none = .ok capped ∧
      ∃ r : Runs capped, ∀ i, (r.state i).stats.iterations = i := by
  obtain ⟨r, hr⟩ := iterations_of_runs build_capped (by decide)
  refine ⟨build_capped, r, fun i => ?_⟩
  cases i with
  | zero =>
    rw [r.state_zero]
    rfl
  | succ i =>
    obtain ⟨-, -, -, -, -, -, hle⟩ := hr i
    obtain ⟨-, -, -, -, -, hge, -⟩ := hr (i + 1)
    simp only at hle
    omega

/-- The second run stops at the cap as well, and one iteration above it. -/
theorem cap_exceeded :
    build "2, 9, X X" { maxIterations := 1 } (some "a a a a a a a a") none = .ok capped ∧
      ∃ e₁ e₂, runWithin 1 capped = .ok (some .maxIterations, e₁) ∧
        runWithin 1 e₁ = .ok (some .maxIterations, e₂) ∧ e₂.stats.iterations = 2 := by
  have hruns : (do
      let r ← runWithin 1 capped
      let q ← runWithin 1 r.2
      return (r.1, q.1, q.2.stats.iterations)) =
        Except.ok (some .maxIterations, some .maxIterations, 2) := by
    decide +kernel
  obtain ⟨⟨o₁, e₁⟩, h₁, hruns⟩ := bind_eq_ok_iff.1 hruns
  obtain ⟨⟨o₂, e₂⟩, h₂, hends⟩ := bind_eq_ok_iff.1 hruns
  simp only [pure, Except.pure, Except.ok.injEq, Prod.mk.injEq] at hends
  obtain ⟨rfl, rfl, hn⟩ := hends
  exact ⟨build_capped, e₁, e₂, h₁, h₂, hn⟩

end Engine

end GrammarInduction
