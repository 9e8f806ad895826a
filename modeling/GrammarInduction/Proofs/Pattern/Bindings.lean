import GrammarInduction.Pattern.Bindings
import GrammarInduction.Proofs.Lists
import GrammarInduction.Proofs.Sorting
import Mathlib.Data.Finset.Card

/-!
# Bindings are one to one

Pairs of a variable and a value are `OneToOne` if equal variables have equal values and different
variables different ones. Bindings of this kind take a further pair if and only if they are of this
kind with it (`Bindings.unify_eq_ok_iff`): a conflict is a variable with two values, a collision a
value with two variables.

`Bindings.Holds b l`: the pairs of `l` are one to one, and `b` has each of them once. Binding more
pairs in a row succeeds if they are one to one with those that are held, and leads to bindings that
hold them too (`Bindings.Holds.unifyAll`). Bindings that hold pairs are known from the pairs alone,
up to their order, which neither look-ups nor the text show (`Bindings.unifyAll_perm`).
-/

namespace GrammarInduction

/-- Variables are equal where their values are. -/
def OneToOne (pairs : List (String × String)) : Prop :=
  ∀ p ∈ pairs, ∀ q ∈ pairs, p.1 = q.1 ↔ p.2 = q.2

/-- The order of the pairs does not matter, nor how often they are there. -/
theorem OneToOne.congr {l m : List (String × String)} (h : ∀ p, p ∈ l ↔ p ∈ m) :
    OneToOne l ↔ OneToOne m := by simp only [OneToOne, h]

theorem OneToOne.mono {l m : List (String × String)} (h : OneToOne m) (hsub : ∀ p ∈ l, p ∈ m) :
    OneToOne l := fun p hp q hq => h p (hsub p hp) q (hsub q hq)

namespace Bindings

variable {b b' : Bindings} {name value : String}

theorem value?_eq_some_iff (h : OneToOne b.pairs) :
    b.value? name = some value ↔ (name, value) ∈ b.pairs := by
  have hfind := @find?_eq_some_iff_of_injOn _ _ _ _ Prod.fst b.pairs
    fun p hp q hq hpq => Prod.ext hpq ((h p hp q hq).1 hpq)
  simp only [value?, Option.map_eq_some_iff, hfind, Prod.exists]
  simp

theorem holder?_eq_some_iff (h : OneToOne b.pairs) :
    b.holder? value = some name ↔ (name, value) ∈ b.pairs := by
  have hfind := @find?_eq_some_iff_of_injOn _ _ _ _ Prod.snd b.pairs
    fun p hp q hq hpq => Prod.ext ((h p hp q hq).2 hpq) hpq
  simp only [holder?, Option.map_eq_some_iff, hfind, Prod.exists]
  simp

/-- A pair is taken if the bindings stay one to one, and is there afterwards. -/
theorem unify_eq_ok_iff (h : OneToOne b.pairs) : b.unify name value = .ok b' ↔
    OneToOne ((name, value) :: b.pairs) ∧
      b' = if (name, value) ∈ b.pairs then b else ⟨b.pairs ++ [(name, value)]⟩ := by
  unfold unify
  cases hbound : b.value? name with
  | some bound =>
    have hmem := (value?_eq_some_iff h).1 hbound
    by_cases heq : bound = value
    · subst heq
      have hcons : OneToOne ((name, bound) :: b.pairs) := h.mono (by simp [hmem])
      simp [hmem, hcons, eq_comm]
    · have hconflict : ¬ OneToOne ((name, value) :: b.pairs) := fun hcons =>
        heq ((hcons _ (.tail _ hmem) _ List.mem_cons_self).1 rfl)
      simp [heq, hconflict]
  | none =>
    have hfree : ∀ v, (name, v) ∉ b.pairs := by
      intro v hmem
      rw [(value?_eq_some_iff h).2 hmem] at hbound
      cases hbound
    cases hheld : b.holder? value with
    | some holder =>
      have hmem := (holder?_eq_some_iff h).1 hheld
      have hcollision : ¬ OneToOne ((name, value) :: b.pairs) := by
        intro hcons
        obtain rfl : holder = name := (hcons _ (.tail _ hmem) _ List.mem_cons_self).2 rfl
        exact hfree value hmem
      simp [hcollision]
    | none =>
      have hunheld : ∀ x, (x, value) ∉ b.pairs := by
        intro x hmem
        rw [(holder?_eq_some_iff h).2 hmem] at hheld
        cases hheld
      have hcons : OneToOne ((name, value) :: b.pairs) := by
        -- the new pair shares neither its variable nor its value with another one
        have hnew : ∀ q ∈ b.pairs, name ≠ q.1 ∧ value ≠ q.2 := fun q hq =>
          ⟨fun hn => hfree q.2 (hn ▸ hq), fun hv => hunheld q.1 (hv ▸ hq)⟩
        intro p hp q hq
        rcases List.mem_cons.1 hp with rfl | hp <;> rcases List.mem_cons.1 hq with rfl | hq
        · simp
        · simp [hnew q hq]
        · simp [(hnew p hp).1.symm, (hnew p hp).2.symm]
        · exact h p hp q hq
      simp [hfree value, hcons, eq_comm]

/-- The pairs afterwards. -/
theorem mem_unify (h : OneToOne b.pairs) (hu : b.unify name value = .ok b')
    (p : String × String) : p ∈ b'.pairs ↔ p ∈ (name, value) :: b.pairs := by
  obtain ⟨-, rfl⟩ := (unify_eq_ok_iff h).1 hu
  split
  · rename_i hmem
    rw [List.mem_cons]
    exact ⟨.inr, fun hp => hp.elim (fun hp => hp ▸ hmem) id⟩
  · simp [or_comm]

/-! ## Pairs in a row -/

/-- Binds pairs one after the other, up to the first that cannot be bound. -/
def unifyAll (b : Bindings) (pairs : List (String × String)) : Except UnifyError Bindings :=
  pairs.foldlM (fun b p => b.unify p.1 p.2) b

/-- The pairs of `b` are those of `l`, which are one to one; none is there twice. -/
structure Holds (b : Bindings) (l : List (String × String)) : Prop where
  oneToOne : OneToOne l
  nodup : b.pairs.Nodup
  mem : ∀ p, p ∈ b.pairs ↔ p ∈ l

theorem holds_empty : Holds {} [] := ⟨nofun, .nil, fun _ => .rfl⟩

namespace Holds

variable {l m : List (String × String)} {c : Bindings}

theorem pairs (h : b.Holds l) : OneToOne b.pairs := (OneToOne.congr h.mem).2 h.oneToOne

theorem congr_cons (h : b.Holds l) (p : String × String) :
    OneToOne (p :: b.pairs) ↔ OneToOne (l ++ [p]) :=
  OneToOne.congr fun q => by simp [h.mem, or_comm]

theorem unify (h : b.Holds l) (hu : b.unify name value = .ok b') :
    b'.Holds (l ++ [(name, value)]) := by
  have hmem := mem_unify h.pairs hu
  obtain ⟨hone, rfl⟩ := (unify_eq_ok_iff h.pairs).1 hu
  refine ⟨(h.congr_cons _).1 hone, ?_, fun p => ?_⟩
  · split
    · exact h.nodup
    · rename_i hnew
      simpa using h.nodup.concat hnew
  · rw [hmem, List.mem_cons, h.mem, List.mem_append, List.mem_singleton, or_comm]

theorem exists_unify (h : b.Holds l) (hone : OneToOne (l ++ [(name, value)])) :
    ∃ b', b.unify name value = .ok b' :=
  ⟨_, (unify_eq_ok_iff h.pairs).2 ⟨(h.congr_cons _).2 hone, rfl⟩⟩

/-- Pairs are bound in a row if they are one to one with those that are held. -/
theorem unifyAll : ∀ {m l : List (String × String)} {b : Bindings}, b.Holds l →
    (OneToOne (l ++ m) → ∃ b', b.unifyAll m = .ok b') ∧
      ∀ b', b.unifyAll m = .ok b' → b'.Holds (l ++ m)
  | [], l, b, h => by
    rw [List.append_nil]
    exact ⟨fun _ => ⟨b, rfl⟩, fun b' hb => by cases hb; exact h⟩
  | p :: m, l, b, h => by
    have hcons : b.unifyAll (p :: m) = b.unify p.1 p.2 >>= fun b₁ => b₁.unifyAll m :=
      List.foldlM_cons
    rw [hcons, List.append_cons]
    cases hu : b.unify p.1 p.2 with
    | error e =>
      refine ⟨fun hone => ?_, nofun⟩
      have hfirst : OneToOne (l ++ [p]) := hone.mono fun _ => List.mem_append_left _
      obtain ⟨b₁, hb₁⟩ := h.exists_unify hfirst
      rw [hb₁] at hu
      cases hu
    | ok b₁ => exact unifyAll (h.unify hu)

/-! ## What is known of the bindings -/

theorem value?_eq_some_iff (h : b.Holds l) :
    b.value? name = some value ↔ (name, value) ∈ l :=
  (Bindings.value?_eq_some_iff h.pairs).trans (h.mem _)

theorem holder?_eq_some_iff (h : b.Holds l) :
    b.holder? value = some name ↔ (name, value) ∈ l :=
  (Bindings.holder?_eq_some_iff h.pairs).trans (h.mem _)

/-- There is one pair for each variable. -/
theorem length_pairs (h : b.Holds l) :
    b.pairs.length = (l.map Prod.fst).toFinset.card := by
  have hinj : ∀ p ∈ b.pairs, ∀ q ∈ b.pairs, p.1 = q.1 → p = q := fun p hp q hq hpq =>
    Prod.ext hpq ((h.pairs p hp q hq).1 hpq)
  have hvars : (l.map Prod.fst).toFinset = (b.pairs.map Prod.fst).toFinset := by
    ext x
    simp [h.mem]
  rw [hvars, List.toFinset_card_of_nodup (h.nodup.map_on hinj), List.length_map]

theorem perm (h : b.Holds l) (hc : c.Holds m) (hlm : ∀ p, p ∈ l ↔ p ∈ m) :
    b.pairs.Perm c.pairs :=
  (List.perm_ext_iff_of_nodup h.nodup hc.nodup).2 fun p => by rw [h.mem, hc.mem, hlm]

end Holds

theorem linearLe_pairLe : LinearLe pairLe := linearLe_text.byText

/-- The text does not show the order in which pairs were bound. -/
theorem text_of_perm {c : Bindings} (h : b.pairs.Perm c.pairs) : b.text = c.text := by
  rw [text, text, sorted, sorted, linearLe_pairLe.mergeSort_eq_iff_perm.2 h]

/-- Pairs can be bound in some order if and only if they are one to one, and then in any order.
Either way each variable holds its value, each value is held by its variable, the text is the same
and there are as many pairs as variables. -/
theorem unifyAll_perm {l m : List (String × String)} (h : l.Perm m) :
    ((∃ b, unifyAll {} l = .ok b) ↔ OneToOne l) ∧ ((∃ c, unifyAll {} m = .ok c) ↔ OneToOne l) ∧
      ∀ b c, unifyAll {} l = .ok b → unifyAll {} m = .ok c →
        (∀ name value, b.value? name = some value ↔ (name, value) ∈ l) ∧
        (∀ name value, b.holder? value = some name ↔ (name, value) ∈ l) ∧
        c.value? = b.value? ∧ c.holder? = b.holder? ∧ c.text = b.text ∧
        b.pairs.length = (l.map Prod.fst).toFinset.card ∧ c.pairs.length = b.pairs.length := by
  have hmem : ∀ p, p ∈ l ↔ p ∈ m := fun _ => h.mem_iff
  have hsucceeds : ∀ k, (∃ b, unifyAll {} k = .ok b) ↔ OneToOne k := fun k =>
    ⟨fun ⟨b, hb⟩ => (holds_empty.unifyAll.2 b hb).oneToOne, holds_empty.unifyAll.1⟩
  refine ⟨hsucceeds l, (hsucceeds m).trans (OneToOne.congr hmem).symm, fun b c hb hc => ?_⟩
  have hb : b.Holds l := holds_empty.unifyAll.2 b hb
  have hc : c.Holds m := holds_empty.unifyAll.2 c hc
  have hperm := hc.perm hb fun p => (hmem p).symm
  refine ⟨fun _ _ => hb.value?_eq_some_iff, fun _ _ => hb.holder?_eq_some_iff, ?_, ?_,
    text_of_perm hperm, hb.length_pairs, hperm.length_eq⟩
  · funext name
    refine Option.ext fun value => ?_
    rw [hc.value?_eq_some_iff, hb.value?_eq_some_iff, hmem]
  · funext value
    refine Option.ext fun name => ?_
    rw [hc.holder?_eq_some_iff, hb.holder?_eq_some_iff, hmem]

/-- A pair that comes twice, and one that stands between. -/
theorem unifyAll_perm_repeated :
    [("Y", "b"), ("X", "a"), ("Y", "b")].Perm [("X", "a"), ("Y", "b"), ("Y", "b")] ∧
      ∃ b c, unifyAll {} [("Y", "b"), ("X", "a"), ("Y", "b")] = .ok b ∧
        unifyAll {} [("X", "a"), ("Y", "b"), ("Y", "b")] = .ok c ∧
        b.pairs ≠ c.pairs ∧ c.value? = b.value? ∧ c.holder? = b.holder? ∧ c.text = b.text ∧
        b.pairs.length = ["Y", "X", "Y"].toFinset.card := by
  have hperm : [("Y", "b"), ("X", "a"), ("Y", "b")].Perm [("X", "a"), ("Y", "b"), ("Y", "b")] := by
    decide
  have hb : unifyAll {} [("Y", "b"), ("X", "a"), ("Y", "b")] = .ok ⟨[("Y", "b"), ("X", "a")]⟩ := by
    decide
  have hc : unifyAll {} [("X", "a"), ("Y", "b"), ("Y", "b")] = .ok ⟨[("X", "a"), ("Y", "b")]⟩ := by
    decide
  obtain ⟨-, -, hsame⟩ := unifyAll_perm hperm
  obtain ⟨-, -, hvalue, hholder, htext, hlength, -⟩ := hsame _ _ hb hc
  exact ⟨hperm, _, _, hb, hc, by decide, hvalue, hholder, htext, hlength⟩

end Bindings

end GrammarInduction
