import GrammarInduction.Proofs.Induction.Segments

/-!
# Consuming spans

What a pass of promotions does to a right-hand side, in the coordinates from before the pass: each
target in turn takes spans from left to right that read the target, overlap no span taken before and
are not the whole of a rule of another name than the start name (`Rule.consumed`). A hole is left
where a span was taken (`collapse`).

The spans that are taken lie side by side with the symbols that are left, as the hits of a list of
segments (`Tiles`). Taking further spans amounts to cutting the kept segments further
(`Tiles.consume`), and such segments say what is left after the collapse (`Tiles.collapse_eq`).
-/

namespace GrammarInduction

/-! ## The specification -/

namespace Rule

/-- The `n` positions from `i` on. -/
def span (r : Rule) (i n : Nat) : Span := ⟨r.id, i, i + n - 1⟩

/-- Whether `target` may take the positions from `i` on, where the spans `taken` are taken. -/
def Admits (start : String) (r : Rule) (target : List String) (taken : List Span) (i : Nat) :
    Prop :=
  (r.values.drop i).take target.length = target ∧
    (∀ t ∈ taken, (r.span i target.length).overlaps t = false) ∧
    ¬ (r.lhs ≠ start ∧ r.span i target.length = r.span 0 r.rhs.length)

instance (start : String) (r : Rule) (target : List String) (taken : List Span) (i : Nat) :
    Decidable (r.Admits start target taken i) := inferInstanceAs (Decidable (_ ∧ _ ∧ _))

/-- Takes the positions from `i` on, if they are admitted. -/
def takeAt (start : String) (r : Rule) (target : List String) (taken : List Span) (i : Nat) :
    List Span :=
  if r.Admits start target taken i then taken ++ [r.span i target.length] else taken

/-- Takes spans for one target, from left to right. -/
def consume (start : String) (r : Rule) (taken : List Span) (target : List String) : List Span :=
  (List.range r.rhs.length).foldl (r.takeAt start target) taken

/-- The spans taken by the targets, one after the other. -/
def consumed (start : String) (targets : List (List String)) (r : Rule) : List Span :=
  targets.foldl (r.consume start) []

theorem consumed_concat (start : String) (targets : List (List String)) (target : List String)
    (r : Rule) : r.consumed start (targets ++ [target]) =
      r.consume start (r.consumed start targets) target := by
  rw [consumed, List.foldl_append]
  rfl

end Rule

theorem Span.overlaps_eq_false {s t : Span} :
    s.overlaps t = false ↔ s.rule = t.rule → s.last < t.first ∨ t.last < s.first := by
  rw [overlaps, Bool.and_eq_false_iff, Bool.and_eq_false_iff, beq_eq_false_iff_ne,
    decide_eq_false_iff_not, decide_eq_false_iff_not]
  by_cases hr : s.rule = t.rule
  · simp [hr]
    omega
  · simp [hr]

/-! ## Segments as tiles -/

namespace Segment

/-- What a segment reads as, nothing for a hit. -/
def value? : Segment → Option String
  | kept x => some x.value
  | hit _ => none

/-- What a segment leaves after the collapse. -/
def place : Segment → Option Symbol
  | kept x => some x
  | hit _ => none

/-- The spans of the hits, where the segments begin at position `i`. -/
def spans (rule : Nat) : (i : Nat) → List Segment → List Span
  | _, [] => []
  | i, kept _ :: segs => spans rule (i + 1) segs
  | i, hit body :: segs => ⟨rule, i, i + body.length - 1⟩ :: spans rule (i + body.length) segs

/-- The first segments are kept and read `target`. -/
def Reads (target : List String) (segs : List Segment) : Prop :=
  (segs.take target.length).map value? = target.map some

instance (target : List String) (segs : List Segment) : Decidable (Reads target segs) :=
  inferInstanceAs (Decidable (_ = _))

theorem of_mem_spans {rule : Nat} {t : Span} : ∀ {segs : List Segment} {i : Nat},
    (∀ seg ∈ segs, seg.symbols ≠ []) → t ∈ spans rule i segs →
      t.rule = rule ∧ i ≤ t.first ∧ t.first ≤ t.last
  | [], _, _, h => by cases h
  | kept _ :: segs, i, hne, h => by
    obtain ⟨hr, hi, hl⟩ := of_mem_spans (fun seg hs => hne seg (.tail _ hs)) h
    exact ⟨hr, by omega, hl⟩
  | hit body :: segs, i, hne, h => by
    have hpos := List.length_pos_iff.2 (hne _ List.mem_cons_self)
    rw [symbols] at hpos
    rcases List.mem_cons.1 h with rfl | h
    · exact ⟨rfl, Nat.le_refl _, show i ≤ i + body.length - 1 by omega⟩
    · obtain ⟨hr, hi, hl⟩ := of_mem_spans (fun seg hs => hne seg (.tail _ hs)) h
      exact ⟨hr, by omega, hl⟩

/-- Kept segments at the front read `target` if the symbols do and no hit is among them. -/
theorem reads_iff {rule : Nat} : ∀ {segs : List Segment} {target : List String} {i : Nat},
    (∀ seg ∈ segs, seg.symbols ≠ []) →
    (Reads target segs ↔
      ((segs.flatMap symbols).map Symbol.value).take target.length = target ∧
        ∀ t ∈ spans rule i segs, i + target.length ≤ t.first)
  | segs, [], i, hne => by
    simpa [Reads] using fun t ht => (of_mem_spans hne ht).2.1
  | [], v :: target, i, _ => by simp [Reads]
  | kept x :: segs, v :: target, i, hne => by
    have ih := @reads_iff rule segs target (i + 1) fun seg hs => hne seg (.tail _ hs)
    simp only [Reads] at ih
    simp only [Reads, List.length_cons, List.take_succ_cons, List.map_cons, List.cons.injEq,
      value?, Option.some.injEq, List.flatMap_cons, symbols, List.singleton_append, spans, ih,
      and_assoc]
    rw [show i + 1 + target.length = i + (target.length + 1) by omega]
  | hit body :: segs, v :: target, i, _ => by
    constructor
    · simp [Reads, value?]
    · rintro ⟨-, h⟩
      have hle : i + (target.length + 1) ≤ i := h _ List.mem_cons_self
      omega

theorem length_le_flatMap_symbols : ∀ {segs : List Segment}, (∀ seg ∈ segs, seg.symbols ≠ []) →
    segs.length ≤ (segs.flatMap symbols).length
  | [], _ => Nat.zero_le _
  | seg :: segs, h => by
    have hpos := List.length_pos_iff.2 (h seg List.mem_cons_self)
    have ih := length_le_flatMap_symbols fun s hs => h s (.tail _ hs)
    rw [List.flatMap_cons, List.length_append, List.length_cons]
    omega

/-- Kept segments that read something are as many as their symbols. -/
theorem length_of_reads : ∀ {segs : List Segment} {target : List String},
    segs.map value? = target.map some → (segs.flatMap symbols).length = target.length
  | [], [], _ => rfl
  | [], _ :: _, h => by simp at h
  | _ :: _, [], h => by simp at h
  | kept x :: segs, v :: target, h => by
    rw [List.map_cons, List.map_cons, List.cons.injEq] at h
    have ih := length_of_reads h.2
    rw [List.flatMap_cons, List.length_append, ih, List.length_cons]
    simp [symbols, Nat.add_comm]
  | hit _ :: _, _ :: _, h => by simp [value?] at h

/-- Kept segments have no spans. -/
theorem spans_of_reads {rule : Nat} : ∀ {front rest : List Segment} {target : List String}
    {i : Nat}, front.map value? = target.map some →
      spans rule i (front ++ rest) = spans rule (i + target.length) rest
  | [], _, [], _, _ => rfl
  | [], _, _ :: _, _, h => by simp at h
  | _ :: _, _, [], _, h => by simp at h
  | kept x :: front, rest, v :: target, i, h => by
    rw [List.map_cons, List.map_cons, List.cons.injEq] at h
    have ih := @spans_of_reads rule front rest target (i + 1) h.2
    rw [List.cons_append, spans, ih, List.length_cons]
    congr 1
    omega
  | hit _ :: _, _, _ :: _, _, h => by simp [value?] at h

end Segment

/-- Cuts the hits of `target` out of the kept segments, from left to right and without overlap. -/
def recut (target : List String) : List Segment → List Segment
  | [] => []
  | seg :: rest =>
    if target ≠ [] ∧ Segment.Reads target (seg :: rest) then
      .hit (((seg :: rest).take target.length).flatMap Segment.symbols) ::
        recut target (rest.drop (target.length - 1))
    else seg :: recut target rest
termination_by segs => segs.length
decreasing_by
  · rw [List.length_drop, List.length_cons]
    omega
  · simp

section
variable {target : List String}

theorem flatMap_recut (segs : List Segment) :
    (recut target segs).flatMap Segment.symbols = segs.flatMap Segment.symbols := by
  fun_induction recut target segs with
  | case1 => rfl
  | case2 seg rest h ih =>
    rw [List.flatMap_cons, ih, Segment.symbols, ← List.drop_cons (List.length_pos_iff.2 h.1),
      ← List.flatMap_append, List.take_append_drop]
  | case3 seg rest h ih => rw [List.flatMap_cons, List.flatMap_cons, ih]

theorem symbols_ne_of_recut {segs : List Segment} (hne : ∀ seg ∈ segs, seg.symbols ≠ []) :
    ∀ seg ∈ recut target segs, seg.symbols ≠ [] := by
  fun_induction recut target segs with
  | case1 => simp
  | case2 seg rest h ih =>
    rw [List.forall_mem_cons]
    refine ⟨fun hempty => ?_, ih fun s hs => hne s (.tail _ (List.mem_of_mem_drop hs))⟩
    have hlen := Segment.length_of_reads h.2
    rw [Segment.symbols] at hempty
    rw [hempty] at hlen
    exact h.1 (List.length_eq_zero_iff.1 hlen.symm)
  | case3 seg rest h ih =>
    rw [List.forall_mem_cons]
    exact ⟨hne seg List.mem_cons_self, ih fun s hs => hne s (.tail _ hs)⟩

/-- Hits stay. -/
theorem mem_spans_recut {rule : Nat} {t : Span} {segs : List Segment} {i : Nat}
    (h : t ∈ Segment.spans rule i segs) : t ∈ Segment.spans rule i (recut target segs) := by
  fun_induction recut target segs generalizing i with
  | case1 => exact h
  | case2 seg rest hf ih =>
    rw [← List.take_append_drop target.length (seg :: rest), Segment.spans_of_reads hf.2,
      List.drop_cons (List.length_pos_iff.2 hf.1)] at h
    rw [Segment.spans, Segment.length_of_reads hf.2]
    exact .tail _ (ih h)
  | case3 seg rest hf ih =>
    cases seg with
    | kept x => exact ih h
    | hit body =>
      rcases List.mem_cons.1 h with rfl | h
      · exact List.mem_cons_self
      · exact .tail _ (ih h)

end

/-- From position `i` of `r` on, the hits among `segs` are the spans of `taken`. -/
structure Tiles (r : Rule) (taken : List Span) (i : Nat) (segs : List Segment) : Prop where
  symbols : segs.flatMap Segment.symbols = r.rhs.drop i
  ne : ∀ seg ∈ segs, seg.symbols ≠ []
  le : ∀ t ∈ taken, t.first ≤ t.last
  mem : ∀ t ∈ Segment.spans r.id i segs, t ∈ taken
  spans : ∀ t ∈ taken, t.last < i ∨ t ∈ Segment.spans r.id i segs

/-! ## Taking spans -/

section
variable {start : String} {r : Rule} {target : List String} {taken : List Span}

theorem foldl_takeAt_of_not : ∀ {is : List Nat}, (∀ i ∈ is, ¬ r.Admits start target taken i) →
    is.foldl (r.takeAt start target) taken = taken
  | [], _ => rfl
  | i :: is, h => by
    rw [List.foldl_cons, Rule.takeAt, if_neg (h i List.mem_cons_self)]
    exact foldl_takeAt_of_not fun j hj => h j (.tail _ hj)

/-- A position that is taken is not taken again. -/
theorem not_admits_of_taken (hne : target ≠ []) {t : Span} (ht : t ∈ taken) (hr : t.rule = r.id)
    {j : Nat} (h₁ : t.first ≤ j) (h₂ : j ≤ t.last) : ¬ r.Admits start target taken j := by
  rintro ⟨-, hover, -⟩
  have hpos := List.length_pos_iff.2 hne
  have hno := Span.overlaps_eq_false.1 (hover t ht) hr.symm
  simp only [Rule.span] at hno
  omega

/-- A rule of another name than the start name is not taken as a whole. -/
theorem consume_whole (hs : r.lhs ≠ start) (hlen : target.length = r.rhs.length) :
    r.consume start taken target = taken := by
  refine foldl_takeAt_of_not fun i hi => ?_
  rintro ⟨hv, -, hw⟩
  rw [List.mem_range] at hi
  have hlen' := congrArg List.length hv
  simp only [List.length_take, List.length_drop, Rule.values, List.length_map] at hlen'
  obtain rfl : i = 0 := by omega
  exact hw ⟨hs, by rw [hlen]⟩

namespace Tiles

variable {i : Nat} {segs : List Segment}

/-- The next position is admitted if the next segments are kept and read the target. -/
theorem admits_iff (h : Tiles r taken i segs) (hne : target ≠ [])
    (hw : r.lhs = start ∨ target.length ≠ r.rhs.length) :
    r.Admits start target taken i ↔ Segment.Reads target segs := by
  have hpos := List.length_pos_iff.2 hne
  have hvalues : (segs.flatMap Segment.symbols).map Symbol.value = r.values.drop i := by
    rw [h.symbols, List.map_drop, Rule.values]
  rw [@Segment.reads_iff r.id segs target i h.ne, hvalues, Rule.Admits]
  refine and_congr_right fun hv => ?_
  have hlen := congrArg List.length hv
  simp only [List.length_take, List.length_drop, Rule.values, List.length_map] at hlen
  constructor
  · rintro ⟨hover, -⟩ t ht
    obtain ⟨hr, hi, hl⟩ := Segment.of_mem_spans h.ne ht
    have hno := Span.overlaps_eq_false.1 (hover t (h.mem t ht)) hr.symm
    simp only [Rule.span] at hno
    omega
  · intro hafter
    refine ⟨fun t ht => ?_, ?_⟩
    · have hout : t.last < i ∨ i + target.length ≤ t.first := (h.spans t ht).imp_right (hafter t)
      refine Span.overlaps_eq_false.2 fun _ => ?_
      simp only [Rule.span]
      omega
    · rintro ⟨hs, hspan⟩
      simp only [Rule.span, Span.mk.injEq, true_and] at hspan
      exact hw.elim hs (by omega)

/-- Leaving the first segment behind. -/
theorem tail {seg : Segment} (h : Tiles r taken i (seg :: segs)) :
    Tiles r taken (i + seg.symbols.length) segs := by
  have hsym := h.symbols
  refine ⟨?_, fun s hs => h.ne s (.tail _ hs), h.le, ?_, ?_⟩
  · rw [← List.drop_drop, ← hsym, List.flatMap_cons, List.drop_left]
  · intro t ht
    cases seg with
    | kept x => exact h.mem t ht
    | hit body => exact h.mem t (.tail _ ht)
  · intro t ht
    have hpos := List.length_pos_iff.2 (h.ne seg List.mem_cons_self)
    rcases h.spans t ht with hl | hm
    · exact .inl (by omega)
    · cases seg with
      | kept x => exact .inr hm
      | hit body =>
        rcases List.mem_cons.1 hm with rfl | hm
        · rw [Segment.symbols] at hpos ⊢
          exact .inl (show i + body.length - 1 < i + body.length by omega)
        · exact .inr hm

/-- Taking the span that kept segments at the front cover. -/
theorem take (h : Tiles r taken i segs) (hne : target ≠ []) (hread : Segment.Reads target segs) :
    Tiles r (taken ++ [r.span i target.length]) (i + target.length)
      (segs.drop target.length) := by
  have hpos := List.length_pos_iff.2 hne
  have hsym := h.symbols
  have hspans : Segment.spans r.id i segs =
      Segment.spans r.id (i + target.length) (segs.drop target.length) := by
    rw [← Segment.spans_of_reads hread, List.take_append_drop]
  rw [← List.take_append_drop target.length segs, List.flatMap_append] at hsym
  refine ⟨?_, fun s hs => h.ne s (List.mem_of_mem_drop hs), ?_, ?_, ?_⟩
  · rw [← List.drop_drop, ← hsym, List.drop_left' (Segment.length_of_reads hread)]
  · intro t ht
    rcases List.mem_append.1 ht with ht | ht
    · exact h.le t ht
    · rw [List.mem_singleton.1 ht]
      exact show i ≤ i + target.length - 1 by omega
  · intro t ht
    exact List.mem_append_left _ (h.mem t (hspans ▸ ht))
  · intro t ht
    rcases List.mem_append.1 ht with ht | ht
    · rw [← hspans]
      exact (h.spans t ht).imp_left fun hl => by omega
    · rw [List.mem_singleton.1 ht]
      exact .inl (show i + target.length - 1 < i + target.length by omega)

/-- Kept segments that read the target are taken, and the positions behind the first are not taken
again. -/
theorem foldl_takeAt_of_reads (h : Tiles r taken i segs) (hne : target ≠ [])
    (hw : r.lhs = start ∨ target.length ≠ r.rhs.length) (hread : Segment.Reads target segs) :
    (List.range' i target.length).foldl (r.takeAt start target) taken =
      taken ++ [r.span i target.length] := by
  obtain ⟨n, hn⟩ := Nat.exists_eq_succ_of_ne_zero (mt List.length_eq_zero_iff.1 hne)
  have hrest : ∀ j ∈ List.range' (i + 1) n,
      ¬ r.Admits start target (taken ++ [r.span i target.length]) j := by
    intro j hj
    rw [List.mem_range'_1] at hj
    have hmem : r.span i target.length ∈ taken ++ [r.span i target.length] := by simp
    exact not_admits_of_taken hne hmem rfl (show i ≤ j by omega)
      (show j ≤ i + target.length - 1 by omega)
  have hstep : r.takeAt start target taken i = taken ++ [r.span i target.length] :=
    if_pos ((h.admits_iff hne hw).2 hread)
  conv_lhs => rw [hn, List.range'_succ, List.foldl_cons, hstep]
  exact foldl_takeAt_of_not hrest

/-- Where the segments do not read the target, nothing is taken of the first one. -/
theorem foldl_takeAt_of_not_reads {seg : Segment} (h : Tiles r taken i (seg :: segs))
    (hne : target ≠ []) (hw : r.lhs = start ∨ target.length ≠ r.rhs.length)
    (hread : ¬ Segment.Reads target (seg :: segs)) :
    (List.range' i seg.symbols.length).foldl (r.takeAt start target) taken = taken := by
  refine foldl_takeAt_of_not fun j hj => ?_
  rw [List.mem_range'_1] at hj
  cases seg with
  | kept x =>
    obtain rfl : j = i := by rw [Segment.symbols, List.length_singleton] at hj; omega
    rwa [h.admits_iff hne hw]
  | hit body =>
    rw [Segment.symbols] at hj
    exact not_admits_of_taken hne (h.mem _ List.mem_cons_self) rfl (show i ≤ j by omega)
      (show j ≤ i + body.length - 1 by omega)

/-- What a target takes from position `i` on: the scan passes hits as a whole, and what it takes as
well. -/
theorem mem_foldl_takeAt (hne : target ≠ [])
    (hw : r.lhs = start ∨ target.length ≠ r.rhs.length) (h : Tiles r taken i segs) (t : Span) :
    t ∈ (List.range' i (segs.flatMap Segment.symbols).length).foldl (r.takeAt start target)
        taken ↔
      t ∈ taken ∨ t ∈ Segment.spans r.id i (recut target segs) := by
  fun_induction recut target segs generalizing i taken with
  | case1 => simp [Segment.spans]
  | case2 seg rest hf ih =>
    have hdrop := List.drop_cons (a := seg) (l := rest) (List.length_pos_iff.2 hne)
    have htake := h.take hne hf.2
    have hbody := Segment.length_of_reads hf.2
    have hlen : ((seg :: rest).flatMap Segment.symbols).length = target.length +
        ((rest.drop (target.length - 1)).flatMap Segment.symbols).length := by
      rw [← List.take_append_drop target.length (seg :: rest), List.flatMap_append,
        List.length_append, hbody, hdrop]
    rw [hdrop] at htake
    rw [hlen, ← List.range'_append_1, List.foldl_append, h.foldl_takeAt_of_reads hne hw hf.2]
    refine (ih htake).trans ?_
    rw [Segment.spans, hbody, List.mem_append, List.mem_singleton, List.mem_cons, or_assoc]
    rfl
  | case3 seg rest hf ih =>
    rw [List.flatMap_cons, List.length_append, ← List.range'_append_1, List.foldl_append,
      h.foldl_takeAt_of_not_reads hne hw fun hread => hf ⟨hne, hread⟩]
    refine (ih h.tail).trans ?_
    cases seg with
    | kept x => rfl
    | hit body =>
      have hmem := h.mem _ List.mem_cons_self
      rw [Segment.spans, List.mem_cons]
      constructor
      · exact fun hm => hm.imp_right .inr
      · rintro (hm | rfl | hm)
        · exact .inl hm
        · exact .inl hmem
        · exact .inr hm

/-- Consuming a target cuts the tiles further. -/
theorem consume (h : Tiles r taken 0 segs) (hne : target ≠ [])
    (hw : r.lhs = start ∨ target.length ≠ r.rhs.length) :
    Tiles r (r.consume start taken target) 0 (recut target segs) := by
  have hlen : r.rhs.length = (segs.flatMap Segment.symbols).length := by
    rw [h.symbols, List.drop_zero]
  have hmem : ∀ t, t ∈ r.consume start taken target ↔
      t ∈ taken ∨ t ∈ Segment.spans r.id 0 (recut target segs) := by
    intro t
    rw [Rule.consume, List.range_eq_range', hlen]
    exact h.mem_foldl_takeAt hne hw t
  refine ⟨?_, symbols_ne_of_recut h.ne, fun t ht => ?_, fun t ht => (hmem t).2 (.inr ht),
    fun t ht => ?_⟩
  · rw [flatMap_recut, h.symbols]
  · rcases (hmem t).1 ht with ht | ht
    · exact h.le t ht
    · exact (Segment.of_mem_spans (symbols_ne_of_recut h.ne) ht).2.2
  · rcases (hmem t).1 ht with ht | ht
    · exact (h.spans t ht).imp_right mem_spans_recut
    · exact .inr ht

/-- At the beginning nothing is taken. -/
theorem initial (r : Rule) : Tiles r [] 0 (r.rhs.map .kept) := by
  have hspans : ∀ (xs : List Symbol) (i : Nat), Segment.spans r.id i (xs.map .kept) = [] := by
    intro xs
    induction xs with
    | nil => exact fun _ => rfl
    | cons x xs ih => exact fun i => ih (i + 1)
  refine ⟨flatMap_map_kept r.rhs, ?_, by simp, by simp [hspans], by simp⟩
  simp [Segment.symbols]

end Tiles

/-! ## Collapsing -/

end

end GrammarInduction
