import GrammarInduction.Json.Fields
import GrammarInduction.Proofs.Json.RoundTrip

/-!
# Data are read out of their values

A text is read from its code points and a word from its numeral (`string?_ofString`, `word?_ofNat`),
so that different texts and different records have different values.
A record is read from the object of its members: each of them is found once, as their names are
distinct (`recordOf_ofFields`). The items of an array are read one by one (`listOf_array`).
-/

namespace GrammarInduction.Json

theorem chars?_map_toNat : ∀ cs : List Char, chars? (cs.map Char.toNat) = some cs
  | [] => rfl
  | c :: cs => by
    obtain ⟨hhigh, hlow⟩ := toNat_not_half c
    rw [List.map_cons, chars?.eq_def]
    simp only [hhigh, hlow, Bool.false_eq_true, if_false, chars?_map_toNat cs, Option.map_some,
      Char.ofNat_toNat]

theorem text?_codesOf (s : String) : text? (codesOf s) = some s := by
  rw [text?, codesOf, chars?_map_toNat, Option.map_some, String.ofList_toList]

theorem codesOf_injective : Function.Injective codesOf := by
  intro s t h
  have hs := text?_codesOf s
  rw [h, text?_codesOf] at hs
  exact (Option.some.inj hs).symm

theorem ofString_inj {s t : String} : ofString s = ofString t ↔ s = t := by
  rw [ofString, ofString, string.injEq, codesOf_injective.eq_iff]

theorem ofFields_inj {fs gs : List (String × Json)} : ofFields fs = ofFields gs ↔ fs = gs := by
  have hmember : Function.Injective member := fun f g h =>
    Prod.ext (codesOf_injective (Prod.mk.inj h).1) (Prod.mk.inj h).2
  show object (fs.map member) = object (gs.map member) ↔ _
  rw [object.injEq, hmember.list_map.eq_iff]

theorem string?_ofString (s : String) : string? (ofString s) = some s := text?_codesOf s

theorem word?_ofNat {n : Nat} (h : n < 2 ^ 64) : word? (ofNat n) = some n :=
  (Decimal.word?_toDigits n).trans (if_pos h)

/-! ## Records -/

section
variable {fields : List (String × Json)} (hnames : (fields.map Prod.fst).Nodup)
include hnames

theorem member?_of_mem {f : String × Json} (hf : f ∈ fields) :
    member? fields f.1 = some (some f.2) := by
  obtain ⟨before, after, rfl⟩ := List.append_of_mem hf
  rw [List.map_append, List.map_cons, List.nodup_middle, ← List.map_append] at hnames
  have hother : ∀ f' ∈ before ++ after, ¬ (f'.1 == f.1) = true := fun f' h' he =>
    (List.nodup_cons.1 hnames).1 (eq_of_beq he ▸ List.mem_map_of_mem h')
  have hbefore := List.filter_eq_nil_iff.2 fun f' h' => hother f' (List.mem_append_left after h')
  have hafter := List.filter_eq_nil_iff.2 fun f' h' => hother f' (List.mem_append_right before h')
  have hthis : (before ++ f :: after).filter (·.1 == f.1) = [f] := by
    rw [List.filter_append, List.filter_cons, if_pos (beq_self_eq_true f.1), hbefore, hafter]
    rfl
  rw [member?, hthis]

theorem fields?_ofFields (least : Nat) :
    fields? (fields.map Prod.fst) least (ofFields fields) = some (fields.map fun f => some f.2) := by
  have hnamed : (fields.map member).mapM
      (fun m : List Nat × Json => (text? m.1).map fun name => (name, m.2)) = some fields := by
    refine mapM_eq_some (List.forall₂_map_left_iff.2 (List.forall₂_same.2 fun f _ => ?_))
    rw [member, text?_codesOf]
    rfl
  have hmembers : (fields.map Prod.fst).mapM (member? fields) =
      some (fields.map fun f => some f.2) := by
    refine mapM_eq_some (List.forall₂_map_left_iff.2 (List.forall₂_map_right_iff.2 ?_))
    exact List.forall₂_same.2 fun f hf => member?_of_mem hnames hf
  show (fields.map member).mapM _ >>= _ = _
  rw [hnamed]
  exact hmembers

end

/-- A record is read from its fields. -/
theorem recordOf_ofFields {α : Type} {fields : List (String × Json)} {names : List String}
    (hnames : fields.map Prod.fst = names) (hnodup : names.Nodup) (least levels : Nat)
    (build : Nat → List (Option Json) → Option α) :
    recordOf names least build (levels + 1) (ofFields fields) =
      build levels (fields.map fun f => some f.2) := by
  subst hnames
  rw [recordOf, fields?_ofFields hnodup, Option.bind_some]

theorem listOf_array {α : Type} {item : Nat → Json → Option α} {toJson : α → Json} {levels : Nat}
    {as : List α} (h : ∀ a ∈ as, item levels (toJson a) = some a) :
    listOf item (levels + 1) (array (as.map toJson)) = some as :=
  mapM_eq_some (List.forall₂_map_left_iff.2 (List.forall₂_same.2 h))

end GrammarInduction.Json
