/-!
# Sorting

A linear order (`LinearLe`) leaves one way to sort given elements, so that sorting takes from a list
its order and nothing else (`LinearLe.mergeSort_eq_iff_perm`). The order by a text, and by what
stands beside it where texts are equal, is linear if the order of the latter is (`byText`,
`LinearLe.byText`).
-/

namespace GrammarInduction

/-- The laws of a linear order. -/
structure LinearLe {α : Type} (le : α → α → Bool) : Prop where
  trans : ∀ {a b c}, le a b = true → le b c = true → le a c = true
  total : ∀ a b, (le a b || le b a) = true
  antisymm : ∀ {a b}, le a b = true → le b a = true → a = b

theorem LinearLe.mergeSort_eq_iff_perm {α : Type} {le : α → α → Bool} (h : LinearLe le)
    {l m : List α} : l.mergeSort le = m.mergeSort le ↔ l.Perm m := by
  have hl := List.mergeSort_perm l le
  have hm := List.mergeSort_perm m le
  constructor
  · intro hsort
    exact hl.symm.trans (hsort ▸ hm)
  · intro hperm
    have hsorted : ∀ k : List α, (k.mergeSort le).Pairwise fun a b => le a b = true :=
      List.pairwise_mergeSort (fun _ _ _ => h.trans) h.total
    exact (hl.trans (hperm.trans hm.symm)).eq_of_pairwise (fun _ _ _ _ => h.antisymm) (hsorted l)
      (hsorted m)

/-! ## Texts -/

theorem linearLe_text : LinearLe fun v w : String => decide (v ≤ w) where
  trans h h' := decide_eq_true (String.le_trans (of_decide_eq_true h) (of_decide_eq_true h'))
  total v w := by
    simp only [Bool.or_eq_true, decide_eq_true_eq]
    exact String.le_total v w
  antisymm h h' := String.le_antisymm (of_decide_eq_true h) (of_decide_eq_true h')

theorem linearLe_texts : LinearLe fun v w : List String => !decide (w < v) where
  trans h h' := by
    simp only [Bool.not_eq_true', decide_eq_false_iff_not] at h h' ⊢
    exact List.le_trans h h'
  total v w := by
    simp only [Bool.or_eq_true, Bool.not_eq_true', decide_eq_false_iff_not]
    exact List.le_total v w
  antisymm h h' := by
    simp only [Bool.not_eq_true', decide_eq_false_iff_not] at h h'
    exact List.le_antisymm h h'

/-- The order by a text, then by what stands beside it. -/
def byText {β : Type} (le : β → β → Bool) (a b : String × β) : Bool :=
  a.1 < b.1 || (a.1 == b.1 && le a.2 b.2)

section
variable {β : Type} {le : β → β → Bool}

theorem byText_iff {a b : String × β} :
    byText le a b = true ↔ a.1 < b.1 ∨ a.1 = b.1 ∧ le a.2 b.2 = true := by
  simp [byText]

theorem LinearLe.byText (hle : LinearLe le) : LinearLe (byText le) where
  trans h h' := by
    rw [byText_iff] at *
    rcases h with h | ⟨h, hv⟩
    · rcases h' with h' | ⟨h', -⟩
      · exact .inl (String.lt_trans h h')
      · exact .inl (h' ▸ h)
    · rcases h' with h' | ⟨h', hv'⟩
      · exact .inl (h ▸ h')
      · exact .inr ⟨h.trans h', hle.trans hv hv'⟩
  total a b := by
    rw [Bool.or_eq_true, byText_iff, byText_iff]
    by_cases he : a.1 = b.1
    · have htotal := hle.total a.2 b.2
      rw [Bool.or_eq_true] at htotal
      exact htotal.imp (fun hv => .inr ⟨he, hv⟩) fun hv => .inr ⟨he.symm, hv⟩
    · exact (String.le_total a.1 b.1).imp (fun h => .inl (Std.lt_of_le_of_ne h he))
        fun h => .inl (Std.lt_of_le_of_ne h (Ne.symm he))
  antisymm h h' := by
    rw [byText_iff] at h h'
    rcases h with h | ⟨he, hv⟩
    · rcases h' with h' | ⟨he, -⟩
      · exact absurd h' (String.lt_asymm h)
      · exact absurd h (he ▸ String.lt_irrefl _)
    · rcases h' with h' | ⟨-, hv'⟩
      · exact absurd h' (he ▸ String.lt_irrefl _)
      · exact Prod.ext he (hle.antisymm hv hv')

end

end GrammarInduction
