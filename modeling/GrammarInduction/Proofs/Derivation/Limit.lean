import GrammarInduction.Derivation.Draws
import GrammarInduction.Proofs.Derivation.Outcome

/-!
# Raising the limit of derivations

Two derivations from one state that differ in their limits go the same way until the lower limit is
reached (`Picking.Follows`). This is kept by computing one thing after the other, so it holds of the
expansion of a name at any depth (`Grammar.follows_expandTree`), whether names lead back to
themselves or have no rules. A derivation that finishes is therefore the same under every higher
limit, and one that reaches the higher limit reached the lower one before
(`Grammar.outlasts_of_le`).
-/

namespace GrammarInduction

variable {σ α β : Type}

/-- `drawn s` is a number of draws that have led to the state `s`: no pick takes one back. -/
def Chooser.Counts (c : Chooser σ) (drawn : σ → Nat) : Prop :=
  ∀ n s, drawn s ≤ drawn (c.pick n s).2

namespace Draws

theorem taken_le_pickWithin (n : Nat) : ∀ (attempts : Nat) (d : Draws),
    d.taken ≤ (pickWithin n attempts d).2.taken
  | 0, _ => Nat.le_refl _
  | attempts + 1, d => by
    have hnext : d.taken ≤ d.next.2.taken := Nat.le_succ d.taken
    simp only [pickWithin]
    split
    · exact hnext
    · exact Nat.le_trans hnext (taken_le_pickWithin n attempts d.next.2)

theorem counts_taken : chooser.Counts taken := fun n d => taken_le_pickWithin n d.source.patience d

end Draws

namespace Picking

variable {drawn : σ → Nat} {limit : Nat}

/-- A result, or a name without rules: what does not come from the limit. -/
inductive Finished : Except GrammarError α → Prop
  | ok (a : α) : Finished (.ok a)
  | noAlternatives (name : String) : Finished (.error (.noAlternatives name))

/-- Whatever its state, the computation takes no draw back. -/
def Spends (drawn : σ → Nat) (m : Picking σ α) : Prop := ∀ s, drawn s ≤ drawn (m.outcome s).2

/-- From every state `high` finishes as `low` does, or `low` reaches its limit, and not after more
draws than `high` takes in all. -/
def Follows (drawn : σ → Nat) (limit : Nat) (low high : Picking σ α) : Prop :=
  ∀ s, (Finished (low.outcome s).1 ∧ high.outcome s = low.outcome s) ∨
    (low.outcome s).1 = .error (.tooDeep limit) ∧
      drawn (low.outcome s).2 ≤ drawn (high.outcome s).2

/-! ## Computing one thing after the other -/

theorem outcome_bind_error {m : Picking σ α} {f : α → Picking σ β} {s s' : σ} {e : GrammarError}
    (h : m.outcome s = (.error e, s')) : (m >>= f).outcome s = (.error e, s') := by
  rw [outcome_bind, h]

theorem spends_pure (a : α) : Spends drawn (pure a) := fun _ => Nat.le_refl _

theorem Spends.bind {m : Picking σ α} {f : α → Picking σ β} (hm : Spends drawn m)
    (hf : ∀ a, Spends drawn (f a)) : Spends drawn (m >>= f) := by
  intro s
  have hs := hm s
  rcases h : m.outcome s with ⟨e | a, s'⟩
  · rw [h] at hs
    rw [outcome_bind_error h]
    exact hs
  · rw [h] at hs
    rw [outcome_bind_ok h]
    exact Nat.le_trans hs (hf a s')

theorem Spends.mapM {m : α → Picking σ β} (hm : ∀ x, Spends drawn (m x)) :
    ∀ xs : List α, Spends drawn (xs.mapM m)
  | [] => by
    rw [List.mapM_nil]
    exact spends_pure []
  | x :: xs => by
    rw [List.mapM_cons]
    exact (hm x).bind fun y => (Spends.mapM hm xs).bind fun ys => spends_pure (y :: ys)

theorem follows_refl {m : Picking σ α} (hm : ∀ s, Finished (m.outcome s).1) :
    Follows drawn limit m m := fun s => .inl ⟨hm s, rfl⟩

theorem follows_pure (a : α) : Follows drawn limit (pure a : Picking σ α) (pure a) :=
  follows_refl fun _ => .ok a

theorem Follows.bind {low high : Picking σ α} {f g : α → Picking σ β}
    (h : Follows drawn limit low high) (hfg : ∀ a, Follows drawn limit (f a) (g a))
    (hg : ∀ a, Spends drawn (g a)) : Follows drawn limit (low >>= f) (high >>= g) := by
  intro s
  rcases h s with ⟨hfin, heq⟩ | ⟨hdeep, hle⟩
  · rcases hlow : low.outcome s with ⟨e | a, s'⟩
    · rw [outcome_bind_error hlow, outcome_bind_error (heq.trans hlow)]
      rw [hlow] at hfin
      cases hfin with
      | noAlternatives name => exact .inl ⟨.noAlternatives name, rfl⟩
    · rw [outcome_bind_ok hlow, outcome_bind_ok (heq.trans hlow)]
      exact hfg a s'
  · rcases hlow : low.outcome s with ⟨e | a, s₁⟩
    · -- the lower one has stopped, and the higher one can only take more draws
      rw [hlow] at hdeep hle
      rw [outcome_bind_error hlow]
      refine .inr ⟨congrArg _ (Except.error.inj hdeep), Nat.le_trans hle ?_⟩
      rcases hhigh : high.outcome s with ⟨e | a, s'⟩
      · exact Nat.le_of_eq (by rw [outcome_bind_error hhigh])
      · rw [outcome_bind_ok hhigh]
        exact hg a s'
    · rw [hlow] at hdeep
      cases hdeep

theorem Follows.mapM {low high : α → Picking σ β} (h : ∀ x, Follows drawn limit (low x) (high x))
    (hs : ∀ x, Spends drawn (high x)) :
    ∀ xs : List α, Follows drawn limit (xs.mapM low) (xs.mapM high)
  | [] => by
    rw [List.mapM_nil, List.mapM_nil]
    exact follows_pure []
  | x :: xs => by
    rw [List.mapM_cons, List.mapM_cons]
    refine (h x).bind (fun y => (Follows.mapM h hs xs).bind (fun ys => follows_pure (y :: ys))
      fun ys => spends_pure (y :: ys)) fun y => ?_
    exact (Spends.mapM hs xs).bind fun ys => spends_pure (y :: ys)

theorem Follows.map {low high : Picking σ α} (f : α → β) (h : Follows drawn limit low high) :
    Follows drawn limit (f <$> low) (f <$> high) := by
  rw [← bind_pure_comp, ← bind_pure_comp]
  exact h.bind (fun a => follows_pure (f a)) fun a => spends_pure (f a)

/-- What a lower limit says about the outcome under a higher one: what is finished stays as it is,
and where the higher limit is reached the lower one was, not after more draws. -/
structure Outlasts (drawn : σ → Nat) (limit : Nat) (high low : Except GrammarError α × σ) :
    Prop where
  same : Finished low.1 → high = low
  reached : ∀ l, high.1 = .error (.tooDeep l) →
    low.1 = .error (.tooDeep limit) ∧ drawn low.2 ≤ drawn high.2

theorem Follows.outlasts {low high : Picking σ α} (h : Follows drawn limit low high) (s : σ) :
    Outlasts drawn limit (high.outcome s) (low.outcome s) := by
  rcases h s with ⟨hfin, heq⟩ | ⟨hdeep, hle⟩
  · refine ⟨fun _ => heq, fun l hl => ?_⟩
    rw [heq] at hl
    rw [hl] at hfin
    cases hfin
  · refine ⟨fun hfin => ?_, fun _ _ => ⟨hdeep, hle⟩⟩
    rw [hdeep] at hfin
    cases hfin

end Picking

namespace Grammar

variable (g : Grammar) {c : Chooser σ} {drawn : σ → Nat} {limit limit' : Nat}

/-! ## Expanding a name -/

/-- Picking an alternative does not depend on a limit. -/
theorem finished_choose (name : String) (s : σ) :
    Picking.Finished ((g.choose c name).outcome s).1 := by
  cases ha : g.alternatives name with
  | nil =>
    rw [choose, ha]
    exact .noAlternatives name
  | cons r rest =>
    rw [outcome_choose ha]
    exact .ok _

theorem spends_expandSymbol {levels : Nat} (h : ∀ (parent : Option String) (name : String),
    Picking.Spends drawn (g.expandTree c limit levels parent name)) (name : String) (x : Symbol) :
    Picking.Spends drawn (g.expandSymbol c limit levels name x) := by
  unfold expandSymbol
  split
  · exact Picking.spends_pure _
  · exact h (some name) x.value

section
variable (hc : c.Counts drawn)
include hc

theorem spends_choose (name : String) : Picking.Spends drawn (g.choose c name) := by
  intro s
  cases ha : g.alternatives name with
  | nil =>
    rw [choose, ha]
    exact Nat.le_refl _
  | cons r rest =>
    rw [outcome_choose ha]
    exact hc rest.length s

theorem spends_expandTree : ∀ (levels : Nat) (parent : Option String) (name : String),
    Picking.Spends drawn (g.expandTree c limit levels parent name)
  | 0, _, _ => fun _ => Nat.le_refl _
  | levels + 1, parent, name => by
    rw [expandTree_succ]
    exact (g.spends_choose hc name).bind fun r =>
      (Picking.Spends.mapM (g.spends_expandSymbol (spends_expandTree levels) name) r.rhs).bind
        fun children => Picking.spends_pure _

/-- With more levels a name is expanded in the same way, up to where the fewer levels end. -/
theorem follows_expandTree : ∀ {levels levels' : Nat}, levels ≤ levels' →
    ∀ (parent : Option String) (name : String), Picking.Follows drawn limit
      (g.expandTree c limit levels parent name) (g.expandTree c limit' levels' parent name)
  | 0, levels', _, parent, name => fun s =>
    .inr ⟨rfl, g.spends_expandTree hc levels' parent name s⟩
  | levels + 1, levels' + 1, hle, parent, name => by
    have hsymbol : ∀ x, Picking.Follows drawn limit (g.expandSymbol c limit levels name x)
        (g.expandSymbol c limit' levels' name x) := by
      intro x
      unfold expandSymbol
      split
      · exact Picking.follows_pure _
      · exact follows_expandTree (Nat.le_of_succ_le_succ hle) (some name) x.value
    have hspends : ∀ x, Picking.Spends drawn (g.expandSymbol c limit' levels' name x) :=
      g.spends_expandSymbol (g.spends_expandTree hc levels') name
    rw [expandTree_succ, expandTree_succ]
    refine (Picking.follows_refl (g.finished_choose name)).bind (fun r => ?_) fun r => ?_
    · exact (Picking.Follows.mapM hsymbol hspends r.rhs).bind
        (fun children => Picking.follows_pure _) fun children => Picking.spends_pure _
    · exact (Picking.Spends.mapM hspends r.rhs).bind fun children => Picking.spends_pure _

/-- Trees and words that finish under a limit are the same under every higher one, and leave the
same state. Where they reach the higher limit they also reach the lower one, not after more
draws. -/
theorem outlasts_of_le (h : limit ≤ limit') (s : σ) :
    Picking.Outlasts drawn limit ((g.deriveTree c limit').outcome s)
        ((g.deriveTree c limit).outcome s) ∧
      Picking.Outlasts drawn limit ((g.generate c limit').outcome s)
        ((g.generate c limit).outcome s) := by
  have htree : Picking.Follows drawn limit (g.deriveTree c limit) (g.deriveTree c limit') :=
    g.follows_expandTree hc h none g.start
  rw [generate_eq_leaves, generate_eq_leaves]
  exact ⟨htree.outlasts s, (htree.map Tree.leaves).outlasts s⟩

end

/-- A name that leads back to itself, twice, or ends in a word. -/
def doubling : Grammar where
  start := "S"
  rules := [⟨"S", [⟨"A", false, 0⟩], 0⟩, ⟨"A", [⟨"A", false, 1⟩, ⟨"A", false, 2⟩], 1⟩,
    ⟨"A", [⟨"a", true, 3⟩], 2⟩]

/-- Draws that spell `a a`. -/
def doublingDraws : Draws := ⟨.listed [0, 0, 0x8000000000000000, 0x8000000000000000], 0⟩

theorem outlasts_of_le_doubling :
    (doubling.generate Draws.chooser 2).outcome doublingDraws =
        (.error (.tooDeep 2), ⟨.listed [0x8000000000000000, 0x8000000000000000], 2⟩) ∧
      (doubling.generate Draws.chooser 3).outcome doublingDraws =
        (.ok ["a", "a"], ⟨.listed [], 4⟩) ∧
      Draws.chooser.Counts Draws.taken ∧ 2 ≤ 3 ∧
      Picking.Outlasts Draws.taken 2 ((doubling.deriveTree Draws.chooser 3).outcome doublingDraws)
        ((doubling.deriveTree Draws.chooser 2).outcome doublingDraws) ∧
      Picking.Outlasts Draws.taken 2 ((doubling.generate Draws.chooser 3).outcome doublingDraws)
        ((doubling.generate Draws.chooser 2).outcome doublingDraws) := by
  refine ⟨?_, ?_, Draws.counts_taken, by decide,
    doubling.outlasts_of_le Draws.counts_taken (by decide) doublingDraws⟩
  · rfl
  · rfl

end Grammar

end GrammarInduction
