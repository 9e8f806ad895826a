import GrammarInduction.Json.Format
import GrammarInduction.Proofs.Json.Lexeme

/-!
# Documents are read back

`Reads`: the reader goes from one state to another along a stretch of a document. A value is written
as such a stretch (`Readable`), an array or an object by induction on what it holds. So a document
of indented lines is read as the value that it was written for (`Written.readsBack`), and different
values have different documents (`injective_indented`). This holds for the values that data are
turned into (`Written`), whose numbers are words and whose strings and keys are texts.
-/

namespace GrammarInduction.Json

/-! ## Stretches of a document -/

/-- Reading `cs` in the state `a` comes to reading `ds` in the state `b`. -/
def Reads (a : Awaits) (cs : List Char) (b : Awaits) (ds : List Char) : Prop :=
  ∃ ls, Lexeme.scan cs = (Lexeme.scan ds).map (ls ++ ·) ∧ ls.foldlM Awaits.take? a = some b

namespace Reads

variable {a b c : Awaits} {cs ds es : List Char}

theorem trans (h : Reads a cs b ds) (h' : Reads b ds c es) : Reads a cs c es := by
  obtain ⟨ls, hs, hl⟩ := h
  obtain ⟨ls', hs', hl'⟩ := h'
  refine ⟨ls ++ ls', ?_, ?_⟩
  · rw [hs, hs', Option.map_map]
    simp only [Function.comp_def, List.append_assoc]
  · rw [List.foldlM_append, hl]
    exact hl'

theorem spaces {l : List Char} (h : ∀ c ∈ l, Lexeme.isSpace c = true) : Reads a (l ++ cs) a cs := by
  refine ⟨[], ?_, rfl⟩
  simp only [List.nil_append, Option.map_id']
  induction l with
  | nil => rfl
  | cons c l ih =>
    obtain ⟨hc, h⟩ := List.forall_mem_cons.1 h
    rw [List.cons_append, Lexeme.scan, if_pos hc, ih h]

theorem newline (level : Nat) : Reads a (newline level ++ cs) a cs := by
  refine spaces fun c hc => ?_
  rcases List.mem_cons.1 hc with rfl | hc
  · rfl
  · rw [List.eq_of_mem_replicate hc]
    rfl

theorem lexeme {c : Char} {l : Lexeme} (hs : Lexeme.split (c :: cs) = some (l, ds))
    (hc : Lexeme.isSpace c = false) (hb : a.take? l = some b) : Reads a (c :: cs) b ds := by
  refine ⟨[l], ?_, by simp [hb]⟩
  rw [Lexeme.scan, if_neg (Bool.eq_false_iff.1 hc)]
  split
  · rename_i h
    rw [hs] at h
    cases h
  · rename_i h
    rw [hs] at h
    cases h
    rfl

theorem string {s : String} (hb : a.take? (.string (codesOf s)) = some b) :
    Reads a (spellString (codesOf s) ++ cs) b cs := by
  rw [spellString, List.append_assoc, List.cons_append]
  refine lexeme ?_ rfl hb
  rw [Lexeme.split, codesOf, List.singleton_append, Lexeme.splitString_spell]
  rfl

theorem number {n : Nat} (h : Lexeme.Stop cs) (hb : a.take? (.scalar (ofNat n)) = some b) :
    Reads a (Nat.toDigits 10 n ++ cs) b cs := by
  have hs := Lexeme.split_toDigits h n
  obtain ⟨c, ds, hds, hc, -⟩ := Decimal.toDigits_eq_cons n
  rw [hds] at hs ⊢
  refine lexeme hs ?_ hb
  rw [Bool.eq_false_iff]
  intro hspace
  simp only [Lexeme.isSpace, Bool.or_eq_true, beq_iff_eq] at hspace
  rcases hspace with ((rfl | rfl) | rfl) | rfl <;> cases hc

end Reads

/-! ## Values -/

/-- A value is read from its text, wherever a value may come. -/
def Readable (v : Json) : Prop :=
  ∀ (level : Nat) (first : Bool) (stack : List Opened) {rest : List Char}, Lexeme.Stop rest →
    Reads (.value first stack) (spellValue level v ++ rest) (.next v stack) rest

/-- A member of an object of data. -/
def member (f : String × Json) : List Nat × Json := (codesOf f.1, f.2)

section
variable (level outer : Nat) (stack : List Opened) (rest : List Char)

theorem stop_items (vs : List Json) :
    Lexeme.Stop (spellItems level vs ++ (newline outer ++ rest)) := by
  cases vs <;> exact Lexeme.stop_cons (by decide) _

theorem stop_members (ms : List (List Nat × Json)) :
    Lexeme.Stop (spellMembers level ms ++ (newline outer ++ rest)) := by
  cases ms <;> exact Lexeme.stop_cons (by decide) _

/-- The items after the first, up to the closing mark. Those that have been read are in `done`, the
latest first. -/
theorem reads_items : ∀ {vs : List Json}, (∀ v ∈ vs, Readable v) → ∀ (v : Json) (done : List Json),
    Reads (.next v (.array done :: stack)) (spellItems level vs ++ (newline outer ++ ']' :: rest))
      (.next (.array (done.reverse ++ v :: vs)) stack) rest
  | [], _, v, done => by
    refine (Reads.newline outer).trans (.lexeme rfl rfl ?_)
    rw [Awaits.take?, List.reverse_cons]
  | w :: vs, h, v, done => by
    obtain ⟨hw, h⟩ := List.forall_mem_cons.1 h
    have ih := reads_items h w (v :: done)
    rw [List.reverse_cons, List.append_assoc, List.singleton_append] at ih
    simp only [spellItems, List.cons_append, List.append_assoc]
    refine .trans (.lexeme rfl rfl rfl) (.trans (.newline level) (.trans ?_ ih))
    exact hw level false _ (stop_items level outer _ vs)

/-- The key of a member and its value. -/
theorem reads_member {f : String × Json} (h : Readable f.2) (first : Bool)
    (done : List (List Nat × Json)) {cs : List Char} (hcs : Lexeme.Stop cs) :
    Reads (.key first done stack) (spellString (member f).1 ++ ':' :: ' ' ::
      (spellValue level (member f).2 ++ cs)) (.next f.2 (.object done (member f).1 :: stack)) cs :=
  .trans (.string rfl) (.trans (.lexeme rfl rfl rfl)
    (.trans (.spaces (List.forall_mem_singleton.2 rfl)) (h level false _ hcs)))

/-- The members after the first, up to the closing mark. -/
theorem reads_members : ∀ {fs : List (String × Json)}, (∀ f ∈ fs, Readable f.2) →
    ∀ (f : String × Json) (done : List (List Nat × Json)),
      Reads (.next f.2 (.object done (member f).1 :: stack))
        (spellMembers level (fs.map member) ++ (newline outer ++ '\x7d' :: rest))
        (.next (.object (done.reverse ++ (f :: fs).map member)) stack) rest
  | [], _, f, done => by
    refine (Reads.newline outer).trans (.lexeme rfl rfl ?_)
    rw [Awaits.take?, List.reverse_cons]
    rfl
  | f' :: fs, h, f, done => by
    obtain ⟨hf', h⟩ := List.forall_mem_cons.1 h
    have ih := reads_members h f' (member f :: done)
    rw [List.reverse_cons, List.append_assoc, List.singleton_append, ← List.map_cons] at ih
    simp only [List.map_cons, spellMembers, List.cons_append, List.append_assoc, List.nil_append]
    refine .trans (.lexeme rfl rfl rfl) (.trans (.newline level) (.trans ?_ ih))
    exact reads_member level _ hf' false _ (stop_members level outer _ _)

end

theorem readable_array {vs : List Json} (h : ∀ v ∈ vs, Readable v) : Readable (array vs) := by
  intro level first stack rest _
  cases vs with
  | nil => exact .trans (.lexeme rfl rfl rfl) (.lexeme rfl rfl rfl)
  | cons v vs =>
    obtain ⟨hv, hvs⟩ := List.forall_mem_cons.1 h
    simp only [spellValue, List.cons_append, List.append_assoc, List.nil_append]
    refine .trans (.lexeme rfl rfl rfl) (.trans (.newline (level + 1)) (.trans ?_
      (reads_items (level + 1) level stack rest hvs v [])))
    exact hv (level + 1) true _ (stop_items _ _ _ vs)

theorem readable_ofFields {fs : List (String × Json)} (h : ∀ f ∈ fs, Readable f.2) :
    Readable (ofFields fs) := by
  intro level first stack rest _
  cases fs with
  | nil => exact .trans (.lexeme rfl rfl rfl) (.lexeme rfl rfl rfl)
  | cons f fs =>
    obtain ⟨hf, hfs⟩ := List.forall_mem_cons.1 h
    simp only [ofFields, List.map_cons, spellValue, List.cons_append, List.append_assoc,
      List.nil_append]
    refine .trans (.lexeme rfl rfl rfl) (.trans (.newline (level + 1)) (.trans ?_
      (reads_members (level + 1) level stack rest hfs f [])))
    exact reads_member (level + 1) _ hf true _ (stop_members _ _ _ _)

theorem Written.readable {v : Json} (h : Written v) : Readable v := by
  induction h with
  | null => exact fun _ _ _ _ _ => .lexeme rfl rfl rfl
  | bool b => cases b <;> exact fun _ _ _ _ _ => .lexeme rfl rfl rfl
  | word _ => exact fun _ _ _ _ hrest => .number hrest rfl
  | string s => exact fun _ _ _ _ _ => .string rfl
  | array _ ih => exact readable_array ih
  | fields _ ih => exact readable_ofFields ih

/-- A document of indented lines is read as the value that it was written for. -/
theorem Written.readsBack {v : Json} (h : Written v) : Format.indented.ReadsBack v := by
  obtain ⟨ls, hs, hl⟩ := h.readable 0 false [] Lexeme.stop_nil
  rw [List.append_nil, Lexeme.scan.eq_def []] at hs
  show parse? v.pretty = some v
  rw [parse?, pretty, String.toList_ofList, hs]
  simp only [Option.map_some, List.append_nil, Option.bind_some, ofLexemes?, hl]
  rfl

theorem injective_indented : Format.indented.Injective := by
  intro v w hv hw h
  have hread : Format.indented.parse? (Format.indented.print v) = some v := hv.readsBack
  rw [h, hw.readsBack] at hread
  exact (Option.some.inj hread).symm

end GrammarInduction.Json
