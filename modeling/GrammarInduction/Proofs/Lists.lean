import Mathlib.Algebra.BigOperators.Group.List.Lemmas
import Mathlib.Algebra.Order.Ring.Nat
import Mathlib.Data.List.FinRange
import Mathlib.Data.List.Forall2
import Mathlib.Data.List.Induction
import Mathlib.Data.Set.Function
import Mathlib.Logic.Equiv.Fin.Basic

/-!
# Lists

Elements of lists side by side, of the pieces of a split list and found by a key, the stretch that a
list begins with, lists repeated and joined, lists without their duplicates, lists under a partial
function and under one that tells their elements apart, and permuted lists place by place.
-/

namespace GrammarInduction

/-- In a list without duplicates, positions go up along the list. -/
theorem pairwise_idxOf {α : Type} [DecidableEq α] {xs : List α} (h : xs.Nodup) :
    xs.Pairwise fun x y => xs.idxOf x < xs.idxOf y := by
  rw [List.pairwise_iff_getElem]
  intro i j hi hj hij
  rwa [h.idxOf_getElem, h.idxOf_getElem]

theorem exists_right_of_forall₂ {α β : Type} {R : α → β → Prop} {l : List α} {m : List β}
    (h : List.Forall₂ R l m) {a : α} (ha : a ∈ l) : ∃ b ∈ m, R a b := by
  induction h with
  | nil => cases ha
  | @cons x y l m hxy _ ih =>
    rcases List.mem_cons.1 ha with rfl | ha
    · exact ⟨y, List.mem_cons_self, hxy⟩
    · obtain ⟨b, hb, hab⟩ := ih ha
      exact ⟨b, .tail _ hb, hab⟩

theorem exists_left_of_forall₂ {α β : Type} {R : α → β → Prop} {l : List α} {m : List β}
    (h : List.Forall₂ R l m) {b : β} (hb : b ∈ m) : ∃ a ∈ l, R a b :=
  exists_right_of_forall₂ h.flip hb

theorem forall₂_of_map_eq {α β γ : Type} {R : α → β → Prop} {f : α → γ} {f' : β → γ} :
    ∀ {l : List α} {m : List β}, (∀ a ∈ l, ∀ b ∈ m, f a = f' b → R a b) → l.map f = m.map f' →
      List.Forall₂ R l m
  | [], [], _, _ => .nil
  | a :: l, b :: m, hR, h => by
    rw [List.map_cons, List.map_cons, List.cons.injEq] at h
    exact .cons (hR a List.mem_cons_self b List.mem_cons_self h.1)
      (forall₂_of_map_eq (fun x hx y hy => hR x (.tail _ hx) y (.tail _ hy)) h.2)

theorem forall₂_trans {α β γ : Type} {R : α → β → Prop} {S : β → γ → Prop} {T : α → γ → Prop}
    (hT : ∀ a b c, R a b → S b c → T a c) : ∀ {l : List α} {m : List β} {k : List γ},
    List.Forall₂ R l m → List.Forall₂ S m k → List.Forall₂ T l k
  | _, _, _, .nil, .nil => .nil
  | _, _, _, .cons h hl, .cons h' hm => .cons (hT _ _ _ h h') (forall₂_trans hT hl hm)

theorem map_eq_of_forall₂ {α β : Type} {R : α → α → Prop} {f : α → β} {l m : List α}
    (h : List.Forall₂ R l m) (hf : ∀ {a b}, R a b → f b = f a) : m.map f = l.map f := by
  induction h with
  | nil => rfl
  | cons hab _ ih => rw [List.map_cons, List.map_cons, hf hab, ih]

theorem forall₂_flatMap {α β γ : Type} {R : β → γ → Prop} {f : α → List β} {g : α → List γ} :
    ∀ {l : List α}, (∀ a ∈ l, List.Forall₂ R (f a) (g a)) →
      List.Forall₂ R (l.flatMap f) (l.flatMap g)
  | [], _ => .nil
  | a :: l, h => by
    rw [List.flatMap_cons, List.flatMap_cons]
    exact List.rel_append (h a List.mem_cons_self) (forall₂_flatMap fun b hb => h b (.tail _ hb))

theorem mapM_eq_some {α β : Type} {f : α → Option β} {l : List α} {m : List β}
    (h : List.Forall₂ (fun a b => f a = some b) l m) : l.mapM f = some m := by
  induction h with
  | nil => rfl
  | cons h _ ih => rw [List.mapM_cons, h, ih]; rfl

/-- A fold succeeds and keeps what each of its steps keeps. -/
theorem exists_foldlM {ε α β : Type} {P : β → Prop} {f : β → α → Except ε β} {l : List α} {b : β}
    (hstep : ∀ a ∈ l, ∀ b, P b → ∃ b', f b a = .ok b' ∧ P b') (h : P b) :
    ∃ b', l.foldlM f b = .ok b' ∧ P b' := by
  induction l generalizing b with
  | nil => exact ⟨b, rfl, h⟩
  | cons a l ih =>
    obtain ⟨b₁, ha, h₁⟩ := hstep a List.mem_cons_self b h
    obtain ⟨b', hl, h'⟩ := ih (fun c hc => hstep c (.tail _ hc)) h₁
    refine ⟨b', ?_, h'⟩
    rw [List.foldlM_cons, ha]
    exact hl

/-- Two folds over one list in one go. -/
theorem foldl_prodMk {α β γ : Type} (f : β → α → β) (g : γ → α → γ) :
    ∀ (l : List α) (b : β) (c : γ),
      l.foldl (fun s a => (f s.1 a, g s.2 a)) (b, c) = (l.foldl f b, l.foldl g c)
  | [], _, _ => rfl
  | a :: l, b, c => foldl_prodMk f g l (f b a) (g c a)

section
variable {α : Type} {p : α → Bool} {l m : List α} (hl : ∀ a ∈ l, p a = true)
  (hm : ∀ a ∈ m.head?, p a = false)
include hl hm

theorem takeWhile_append_of_head? : (l ++ m).takeWhile p = l := by
  rw [List.takeWhile_append_of_pos hl]
  cases m with
  | nil => simp
  | cons a m => rw [List.takeWhile_cons_of_neg (by simp [hm a rfl]), List.append_nil]

theorem dropWhile_append_of_head? : (l ++ m).dropWhile p = m := by
  rw [List.dropWhile_append_of_pos hl]
  cases m with
  | nil => rfl
  | cons a m => rw [List.dropWhile_cons_of_neg (by simp [hm a rfl])]

end

/-- What is left behind a stretch does not go on with it. -/
theorem head?_dropWhile_false {α : Type} (p : α → Bool) (l : List α) :
    ∀ a ∈ (l.dropWhile p).head?, p a = false := by
  intro a ha
  have hnot := List.head?_dropWhile_not p l
  rw [ha] at hnot
  simpa using hnot

/-- Up to the first element that is not good: it is the first of all, or the first is good. -/
theorem exists_first_cons {α : Type} {good : α → Prop} (bad : Nat → α → Prop) {x : α}
    {xs : List α} :
    (∃ before y after, x :: xs = before ++ y :: after ∧ (∀ a ∈ before, good a) ∧
        bad before.length y) ↔
      bad 0 x ∨ good x ∧ ∃ before y after, xs = before ++ y :: after ∧ (∀ a ∈ before, good a) ∧
        bad (before.length + 1) y := by
  constructor
  · rintro ⟨before, y, after, h, hgood, hbad⟩
    cases before with
    | nil =>
      cases h
      exact .inl hbad
    | cons z before =>
      cases h
      obtain ⟨hz, hgood⟩ := List.forall_mem_cons.1 hgood
      exact .inr ⟨hz, before, y, after, rfl, hgood, hbad⟩
  · rintro (hbad | ⟨hx, before, y, after, rfl, hgood, hbad⟩)
    · exact ⟨[], x, xs, rfl, nofun, hbad⟩
    · exact ⟨x :: before, y, after, rfl, List.forall_mem_cons.2 ⟨hx, hgood⟩, hbad⟩

/-- One list for each element that is selected. -/
theorem flatMap_ite {α β : Type} (p : α → Bool) (m : List β) : ∀ l : List α,
    l.flatMap (fun a => if p a then m else []) = (List.replicate (l.countP p) m).flatten
  | [] => rfl
  | a :: l => by
    rw [List.flatMap_cons, flatMap_ite p m l, List.countP_cons]
    split
    · rw [List.replicate_succ, List.flatten_cons]
    · rw [List.nil_append, Nat.add_zero]

theorem flatMap_replicate_perm {α β : Type} (l : List α) (f : α → List β) : ∀ n : Nat,
    (l.flatMap fun a => (List.replicate n (f a)).flatten).Perm
      (List.replicate n (l.flatMap f)).flatten
  | 0 => by simp
  | n + 1 => by
    simp only [List.replicate_succ, List.flatten_cons]
    exact (List.flatMap_append_perm l f _).symm.trans
      ((flatMap_replicate_perm l f n).append_left _)

section
variable {α : Type} {l m : List α} {n : Nat} {a : α} (h : l.Perm (List.replicate n m).flatten)
include h

theorem mem_of_perm_replicate (ha : a ∈ l) : a ∈ m := by
  obtain ⟨k, hk, ha⟩ := List.mem_flatten.1 (h.mem_iff.1 ha)
  rwa [← List.eq_of_mem_replicate hk]

variable [BEq α] [LawfulBEq α]

theorem count_of_perm_replicate (hm : m.Nodup) (ha : a ∈ m) : l.count a = n := by
  rw [h.count_eq, List.count_flatten, List.map_replicate, List.sum_replicate_nat, hm.count,
    if_pos ha, Nat.mul_one]

/-- Some elements, each as often as the others, are distinct if each is there once. -/
theorem nodup_iff_of_perm_replicate (hm : m.Nodup) (hne : l ≠ []) : l.Nodup ↔ n = 1 := by
  constructor
  · intro hl
    obtain ⟨a, ha⟩ := List.exists_mem_of_ne_nil l hne
    rw [← count_of_perm_replicate h hm (mem_of_perm_replicate h ha)]
    exact List.count_eq_one_of_mem hl ha
  · rintro rfl
    rw [h.nodup_iff]
    simpa using hm

end

/-- Numbered lists, each in order, are in lexicographic order together. -/
theorem pairwise_flatMap_zipIdx {α β : Type} {R : β → β → Prop} (l : List α) (f : α → List β)
    (hf : ∀ a ∈ l, (f a).Pairwise R) :
    (l.zipIdx.flatMap fun a => (f a.1).map (a.2, ·)).Pairwise (Prod.Lex (· < ·) R) := by
  rw [List.pairwise_flatMap]
  constructor
  · intro a ha
    rw [List.pairwise_map]
    exact (hf a.1 (List.fst_mem_of_mem_zipIdx ha)).imp fun h => .right _ h
  · have hlt : l.zipIdx.Pairwise fun a b => a.2 < b.2 := by
      rw [← List.pairwise_map (f := Prod.snd), List.zipIdx_map_snd]
      exact List.pairwise_lt_range'
    refine hlt.imp fun {a b} hab x hx y hy => ?_
    obtain ⟨_, -, rfl⟩ := List.mem_map.1 hx
    obtain ⟨_, -, rfl⟩ := List.mem_map.1 hy
    exact .left _ _ hab

/-- A piece of a split list is made of its elements that it is not split at. -/
theorem mem_of_mem_splitOnP {α : Type} {p : α → Bool} {xs piece : List α}
    (h : piece ∈ xs.splitOnP p) {c : α} (hc : c ∈ piece) : c ∈ xs ∧ p c = false := by
  induction xs generalizing piece with
  | nil =>
    rw [List.splitOnP_nil, List.mem_singleton] at h
    rw [h] at hc
    cases hc
  | cons x xs ih =>
    rw [List.splitOnP_cons_eq_if_modifyHead] at h
    split at h
    · rcases List.mem_cons.1 h with rfl | h
      · cases hc
      · exact (ih h hc).imp_left (.tail _)
    · rename_i hx
      obtain ⟨first, pieces, hs⟩ := List.exists_cons_of_ne_nil (List.splitOnP_ne_nil p xs)
      rw [hs, List.modifyHead_cons] at h
      rcases List.mem_cons.1 h with rfl | h
      · rcases List.mem_cons.1 hc with rfl | hc
        · exact ⟨List.mem_cons_self, Bool.eq_false_iff.2 hx⟩
        · exact (ih (hs ▸ List.mem_cons_self) hc).imp_left (.tail _)
      · exact (ih (hs ▸ .tail _ h) hc).imp_left (.tail _)

/-- Elements may be left out before a split or after it, as long as no split is lost. -/
theorem splitOnP_filter {α : Type} {p q : α → Bool} (h : ∀ a, p a = true → q a = true) :
    ∀ l : List α, (l.filter q).splitOnP p = (l.splitOnP p).map (List.filter q)
  | [] => by simp
  | a :: l => by
    have ih := splitOnP_filter h l
    rw [List.splitOnP_cons_eq_if_modifyHead]
    by_cases hp : p a = true
    · rw [List.filter_cons_of_pos (h a hp), List.splitOnP_cons_eq_if_modifyHead, if_pos hp,
        if_pos hp, ih]
      rfl
    · obtain ⟨first, pieces, hl⟩ := List.exists_cons_of_ne_nil (List.splitOnP_ne_nil p l)
      rw [hl, List.map_cons] at ih
      rw [if_neg hp, hl, List.modifyHead_cons, List.map_cons]
      by_cases hq : q a = true
      · rw [List.filter_cons_of_pos hq, List.filter_cons_of_pos hq,
          List.splitOnP_cons_eq_if_modifyHead, if_neg hp, ih, List.modifyHead_cons]
      · rw [List.filter_cons_of_neg hq, List.filter_cons_of_neg hq, ih]

/-- Pieces that are joined by a separator are split off again. -/
theorem splitOnP_intercalate {α : Type} {p : α → Bool} {x : α} (hx : p x = true) :
    ∀ {pieces : List (List α)}, pieces ≠ [] → (∀ piece ∈ pieces, ∀ a ∈ piece, p a = false) →
      ([x].intercalate pieces).splitOnP p = pieces
  | [piece], _, h => by
    rw [List.intercalate_singleton]
    exact List.splitOnP_eq_singleton (h piece List.mem_cons_self)
  | piece :: next :: pieces, _, h => by
    rw [List.intercalate_cons_cons, List.append_assoc, List.singleton_append,
      List.splitOnP_append_cons_of_forall_mem (h piece List.mem_cons_self) x hx,
      splitOnP_intercalate hx (List.cons_ne_nil _ _) fun q hq => h q (.tail _ hq)]

/-- Texts without the separator are told apart when they are joined. -/
theorem intercalate_inj {sep : String} {c : Char} (hsep : sep.toList = [c]) {vs ws : List String}
    (hv : vs ≠ []) (hw : ws ≠ []) (hvs : ∀ v ∈ vs, c ∉ v.toList) (hws : ∀ w ∈ ws, c ∉ w.toList) :
    sep.intercalate vs = sep.intercalate ws ↔ vs = ws := by
  refine ⟨fun h => ?_, fun h => h ▸ rfl⟩
  have h := congrArg (fun s => s.toList.splitOn c) h
  simp only [String.toList_intercalate, hsep] at h
  rw [List.splitOn_intercalate _ (by simpa using hvs) (by simpa using hv),
    List.splitOn_intercalate _ (by simpa using hws) (by simpa using hw)] at h
  exact List.map_injective_iff.2 (fun _ _ h => String.toList_injective h) h

/-- Lists are divided at the first place of an element. -/
theorem append_cons_inj_of_notMem_left {α : Type} [DecidableEq α] {x : α} {l m r s : List α}
    (hl : x ∉ l) (hm : x ∉ m) : l ++ x :: r = m ++ x :: s ↔ l = m ∧ r = s := by
  constructor
  · intro h
    have hlen := congrArg (List.idxOf x) h
    simp only [List.idxOf_append_of_notMem hl, List.idxOf_append_of_notMem hm,
      List.idxOf_cons_self] at hlen
    obtain ⟨hlm, hrs⟩ := List.append_inj h hlen
    exact ⟨hlm, (List.cons.inj hrs).2⟩
  · rintro ⟨rfl, rfl⟩
    rfl

/-- What is where in a list with one more element. -/
theorem getElem?_concat_eq_some_iff {α : Type} {l : List α} {a b : α} {i : Nat} :
    (l ++ [a])[i]? = some b ↔ l[i]? = some b ∨ i = l.length ∧ a = b := by
  rcases Nat.lt_trichotomy i l.length with hlt | rfl | hgt
  · rw [List.getElem?_append_left hlt, or_iff_left fun h => hlt.ne h.1]
  · simp
  · have hlen : (l ++ [a]).length ≤ i := by
      rw [List.length_append]
      exact hgt
    rw [List.getElem?_eq_none hlen, List.getElem?_eq_none hgt.le, or_iff_right nofun]
    exact iff_of_false nofun fun h => hgt.ne' h.1

/-- An element is found by a key that tells the elements apart. -/
theorem find?_eq_some_iff_of_injOn {α β : Type} [BEq β] [LawfulBEq β] {f : α → β} {l : List α}
    (hf : Set.InjOn f {a | a ∈ l}) {a : α} {b : β} :
    l.find? (f · == b) = some a ↔ a ∈ l ∧ f a = b := by
  constructor
  · intro h
    exact ⟨List.mem_of_find?_eq_some h, by simpa using List.find?_some h⟩
  · rintro ⟨ha, rfl⟩
    have hsome : (l.find? (f · == f a)).isSome = true :=
      List.find?_isSome.2 ⟨a, ha, beq_self_eq_true _⟩
    obtain ⟨c, hc⟩ := Option.isSome_iff_exists.1 hsome
    have hca : f c = f a := by simpa using List.find?_some hc
    rw [hc, hf (List.mem_of_find?_eq_some hc) ha hca]

section
variable {α : Type} [BEq α] [LawfulBEq α]

/-- A last element is kept if it is new. -/
theorem eraseDups_concat (l : List α) (a : α) :
    (l ++ [a]).eraseDups = l.eraseDups ++ if a ∈ l then [] else [a] := by
  have hsingle : [a].eraseDups = [a] := by simp [List.eraseDups_cons]
  rw [List.eraseDups_append]
  by_cases h : a ∈ l <;> simp [List.removeAll, h, hsingle]

theorem nodup_eraseDups (l : List α) : l.eraseDups.Nodup := by
  induction l using List.reverseRecOn with
  | nil => simp
  | append_singleton l a ih =>
    rw [eraseDups_concat]
    split
    · simpa using ih
    · rename_i h
      refine List.nodup_append.2 ⟨ih, by simp, ?_⟩
      rintro b hb c hc rfl
      rw [List.mem_eraseDups] at hb
      exact h (List.mem_singleton.1 hc ▸ hb)

theorem sum_map_count_eraseDups [DecidableEq α] (l : List α) :
    (l.eraseDups.map l.count).sum = l.length := by
  have hperm : l.eraseDups.Perm l.dedup :=
    (List.perm_ext_iff_of_nodup (nodup_eraseDups l) (List.nodup_dedup l)).2 (by simp)
  have hsum := List.sum_map_count_dedup_eq_length l
  rw [lawful_beq_subsingleton instBEqOfDecidableEq ‹BEq α›] at hsum
  exact (hperm.map _).sum_nat.trans hsum

end

theorem filterMap_eq_map_filter {α β : Type} {f : α → Option β} {g : α → β}
    (h : ∀ a b, f a = some b → b = g a) (l : List α) :
    l.filterMap f = (l.filter fun a => (f a).isSome).map g := by
  induction l with
  | nil => rfl
  | cons a l ih =>
    cases hf : f a with
    | none => rw [List.filterMap_cons_none hf, List.filter_cons_of_neg (by simp [hf]), ih]
    | some b =>
      rw [List.filterMap_cons_some hf, List.filter_cons_of_pos (by simp [hf]), List.map_cons,
        h a b hf, ih]

/-- Nothing between the pieces. -/
theorem nil_intercalate {α : Type} : ∀ pieces : List (List α),
    [].intercalate pieces = pieces.flatten
  | [] => rfl
  | [piece] => by simp
  | piece :: next :: pieces => by
    rw [List.intercalate_cons_cons, nil_intercalate, List.append_nil]
    rfl

theorem intercalate_concat {α : Type} {x : α} (piece : List α) : ∀ {pieces : List (List α)},
    pieces ≠ [] → [x].intercalate (pieces ++ [piece]) = [x].intercalate pieces ++ x :: piece
  | [first], _ => by simp [List.intercalate_cons_cons]
  | first :: next :: pieces, _ => by
    have ih := intercalate_concat (x := x) piece (List.cons_ne_nil next pieces)
    rw [List.cons_append, List.intercalate_cons_of_ne_nil (by simp), ih,
      List.intercalate_cons_cons]
    simp

theorem mem_intercalate {α : Type} {x a : α} : ∀ {pieces : List (List α)},
    a ∈ [x].intercalate pieces → a = x ∨ ∃ piece ∈ pieces, a ∈ piece
  | [], h => by simp at h
  | [piece], h => .inr ⟨piece, List.mem_cons_self, by simpa using h⟩
  | piece :: next :: pieces, h => by
    rw [List.intercalate_cons_cons, List.mem_append, List.mem_append, List.mem_singleton] at h
    rcases h with (h | h) | h
    · exact .inr ⟨piece, List.mem_cons_self, h⟩
    · exact .inl h
    · exact (mem_intercalate h).imp_right fun ⟨q, hq, ha⟩ => ⟨q, .tail _ hq, ha⟩

section
variable {α β : Type} {f : α → β} {S : Set α} (hf : Set.InjOn f S) {l m : List α}
  (hl : ∀ a ∈ l, a ∈ S) (hm : ∀ a ∈ m, a ∈ S)
include hf

/-- A function that tells the elements apart can be undone. -/
theorem exists_map_map_eq [Nonempty α] :
    ∃ g : β → α, ∀ l : List α, (∀ a ∈ l, a ∈ S) → (l.map f).map g = l := by
  refine ⟨Function.invFunOn f S, fun l hl => ?_⟩
  rw [List.map_map]
  exact (List.map_congr_left fun a ha => hf.leftInvOn_invFunOn (hl a ha)).trans (List.map_id' l)

include hl hm

theorem map_eq_map_iff_of_injOn [Nonempty α] : l.map f = m.map f ↔ l = m := by
  refine ⟨fun h => ?_, fun h => h ▸ rfl⟩
  obtain ⟨g, hg⟩ := exists_map_map_eq hf
  rw [← hg l hl, h, hg m hm]

theorem map_perm_map_iff_of_injOn [Nonempty α] : (l.map f).Perm (m.map f) ↔ l.Perm m := by
  refine ⟨fun h => ?_, fun h => h.map f⟩
  obtain ⟨g, hg⟩ := exists_map_map_eq hf
  have h := h.map g
  rwa [hg l hl, hg m hm] at h

end

/-- Lists are permutations of each other if a bijection between their places keeps what stands
there, and in no other case. -/
theorem perm_iff_exists_equiv {α : Type} {l m : List α} :
    l.Perm m ↔ ∃ e : Fin l.length ≃ Fin m.length, ∀ i, l.get i = m.get (e i) := by
  constructor
  · intro h
    induction h with
    | nil => exact ⟨Equiv.refl _, nofun⟩
    | cons x _ ih =>
      obtain ⟨e, he⟩ := ih
      refine ⟨(finSuccEquiv _).trans (e.optionCongr.trans (finSuccEquiv _).symm), fun i => ?_⟩
      cases i using Fin.cases with
      | zero => rfl
      | succ i => simpa using he i
    | swap x y l =>
      refine ⟨Equiv.swap 0 1, fun i => ?_⟩
      cases i using Fin.cases with
      | zero => rfl
      | succ i =>
        cases i using Fin.cases with
        | zero => rfl
        | succ i =>
          rw [Equiv.swap_apply_of_ne_of_ne (by simp) (by simp [Fin.ext_iff])]
          rfl
    | trans _ _ ih ih' =>
      obtain ⟨e, he⟩ := ih
      obtain ⟨e', he'⟩ := ih'
      exact ⟨e.trans e', fun i => (he i).trans (he' (e i))⟩
  · rintro ⟨e, he⟩
    -- the places of `m` in the order in which `e` meets them
    have hplaces : ((List.finRange l.length).map e).Perm (List.finRange m.length) := by
      rw [List.perm_ext_iff_of_nodup ((List.nodup_finRange _).map e.injective)
        (List.nodup_finRange _)]
      intro j
      obtain ⟨i, rfl⟩ := e.surjective j
      exact iff_of_true (List.mem_map_of_mem (List.mem_finRange i)) (List.mem_finRange _)
    have h := hplaces.map m.get
    rwa [List.map_map, show m.get ∘ e = l.get from (funext he).symm, List.map_get_finRange,
      List.map_get_finRange] at h

theorem map_perm_map_iff_exists_equiv {α β : Type} {f : α → β} {l m : List α} :
    (l.map f).Perm (m.map f) ↔
      ∃ e : Fin l.length ≃ Fin m.length, ∀ i, f (l.get i) = f (m.get (e i)) := by
  have hl : (l.map f).length = l.length := List.length_map f
  have hm : (m.map f).length = m.length := List.length_map f
  rw [perm_iff_exists_equiv]
  constructor
  · rintro ⟨e, he⟩
    refine ⟨(finCongr hl).symm.trans (e.trans (finCongr hm)), fun i => ?_⟩
    simpa using he (Fin.cast hl.symm i)
  · rintro ⟨e, he⟩
    refine ⟨(finCongr hl).trans (e.trans (finCongr hm).symm), fun i => ?_⟩
    simpa using he (Fin.cast hl i)

end GrammarInduction
