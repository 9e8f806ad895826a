import GrammarInduction.Pattern.Bindings
import Mathlib.Logic.Function.Basic

/-!
# Bindings as two maps

Bindings may be kept in two maps, one from variables to values and one from values to variables,
that are written together (`Bindings.Maps`). A call on the pairs has the result that it has on the
maps that are read from them, and leads to the maps that it leads those to (`maps_call`), so that
both go together through any calls (`maps_calls`).

The maps are inverse to each other at the beginning, and every call keeps this
(`Maps.Inverse.call`). Where they are, the values of the variables alone say what becomes of a call
(`Maps.Inverse.call_eq_ok_iff`, `Maps.Inverse.call_eq_collision_iff`), whatever calls went before
(`inverse_of_calls`).
-/

namespace GrammarInduction

namespace Bindings

/-- A call on bindings. -/
inductive Call where
  | unify (name value : String)
  | clear

/-! ## Maps -/

/-- The value that each variable holds, and the variable that holds each value. -/
structure Maps where
  value? : String → Option String := fun _ => none
  holder? : String → Option String := fun _ => none

namespace Maps

variable {m : Maps} {name value : String}

/-- A variable and its value, written into both maps. -/
def write (m : Maps) (name value : String) : Maps :=
  ⟨Function.update m.value? name (some value), Function.update m.holder? value (some name)⟩

/-- The result of a call, and the maps afterwards. -/
def call (m : Maps) : Call → Except UnifyError Unit × Maps
  | .unify name value =>
    match m.value? name with
    | some bound => if bound = value then (.ok (), m) else (.error .conflict, m)
    | none =>
      match m.holder? value with
      | some _ => (.error .collision, m)
      | none => (.ok (), m.write name value)
  | .clear => (.ok (), {})

/-- The maps after calls, one after the other. -/
def calls (m : Maps) (cs : List Call) : Maps := cs.foldl (fun m c => (m.call c).2) m

/-- What a call to unify may come to. -/
theorem call_cases (m : Maps) (name value : String) :
    (m.value? name = some value ∧ m.call (.unify name value) = (.ok (), m)) ∨
    (∃ bound, m.value? name = some bound ∧ bound ≠ value ∧
      m.call (.unify name value) = (.error .conflict, m)) ∨
    (∃ holder, m.value? name = none ∧ m.holder? value = some holder ∧
      m.call (.unify name value) = (.error .collision, m)) ∨
    (m.value? name = none ∧ m.holder? value = none ∧
      m.call (.unify name value) = (.ok (), m.write name value)) := by
  cases hname : m.value? name with
  | some bound =>
    by_cases heq : bound = value
    · exact .inl ⟨by rw [heq], by simp [call, hname, heq]⟩
    · exact .inr (.inl ⟨bound, rfl, heq, by simp [call, hname, heq]⟩)
  | none =>
    cases hvalue : m.holder? value with
    | some holder => exact .inr (.inr (.inl ⟨holder, rfl, rfl, by simp [call, hname, hvalue]⟩))
    | none => exact .inr (.inr (.inr ⟨rfl, rfl, by simp [call, hname, hvalue]⟩))

/-- A call that fails leaves both maps as they are. -/
theorem call_of_error {c : Call} {e : UnifyError} (h : (m.call c).1 = .error e) :
    (m.call c).2 = m := by
  cases c with
  | clear => cases h
  | unify name value =>
    obtain ⟨-, hc⟩ | ⟨-, -, -, hc⟩ | ⟨-, -, -, hc⟩ | ⟨-, -, hc⟩ := m.call_cases name value
    · rw [hc]
    · rw [hc]
    · rw [hc]
    · rw [hc] at h
      cases h

/-- A call meets a conflict if the variable holds another value. -/
theorem call_eq_conflict_iff : (m.call (.unify name value)).1 = .error .conflict ↔
    ∃ bound, m.value? name = some bound ∧ bound ≠ value := by
  obtain ⟨hname, hc⟩ | ⟨_, hname, hne, hc⟩ | ⟨-, hname, -, hc⟩ | ⟨hname, -, hc⟩ :=
    m.call_cases name value
  · simp [hname, hc]
  · simp [hname, hne, hc]
  · simp [hname, hc]
  · simp [hname, hc]

/-- A variable holds the values that it is the holder of. -/
def Inverse (m : Maps) : Prop :=
  ∀ name value, m.value? name = some value ↔ m.holder? value = some name

theorem inverse_empty : Inverse {} := by
  intro name value
  simp

namespace Inverse

/-- Nobody holds a value without a holder. -/
theorem holder?_eq_none_iff (h : m.Inverse) :
    m.holder? value = none ↔ ∀ x, m.value? x ≠ some value := by
  simp only [Option.eq_none_iff_forall_ne_some, ne_eq, h _ value]

theorem write (h : m.Inverse) (hname : m.value? name = none) (hvalue : m.holder? value = none) :
    (m.write name value).Inverse := by
  intro x v
  unfold Maps.write
  have hx := h x v
  by_cases hxn : x = name
  · subst hxn
    by_cases hvv : v = value
    · simp [hvv]
    · -- the variable has been free so far, and so has not held `v`
      rw [hname] at hx
      simp [Function.update_of_ne hvv, ← hx, Ne.symm hvv]
  · by_cases hvv : v = value
    · subst hvv
      rw [hvalue] at hx
      simp [Function.update_of_ne hxn, hx, Ne.symm hxn]
    · simp [Function.update_of_ne hxn, Function.update_of_ne hvv, hx]

/-- Every call keeps the maps inverse to each other. -/
theorem call (h : m.Inverse) (c : Call) : (m.call c).2.Inverse := by
  cases c with
  | clear => exact inverse_empty
  | unify name value =>
    obtain ⟨-, hc⟩ | ⟨-, -, -, hc⟩ | ⟨-, -, -, hc⟩ | ⟨hname, hvalue, hc⟩ := m.call_cases name value
    · rwa [hc]
    · rwa [hc]
    · rwa [hc]
    · rw [hc]
      exact h.write hname hvalue

theorem calls (h : m.Inverse) (cs : List Call) : (m.calls cs).Inverse := by
  induction cs generalizing m with
  | nil => exact h
  | cons c cs ih => exact ih (h.call c)

/-- A call succeeds if the variable holds the value, or is free and no variable holds it. -/
theorem call_eq_ok_iff (h : m.Inverse) : (m.call (.unify name value)).1 = .ok () ↔
    m.value? name = some value ∨ m.value? name = none ∧ ∀ x, m.value? x ≠ some value := by
  rw [← h.holder?_eq_none_iff]
  obtain ⟨hname, hc⟩ | ⟨_, hname, hne, hc⟩ | ⟨_, hname, hvalue, hc⟩ | ⟨hname, hvalue, hc⟩ :=
    m.call_cases name value
  · simp [hname, hc]
  · simp [hname, hne, hc]
  · simp [hname, hvalue, hc]
  · simp [hname, hvalue, hc]

/-- A call meets a collision if the variable is free and another one holds the value. -/
theorem call_eq_collision_iff (h : m.Inverse) :
    (m.call (.unify name value)).1 = .error .collision ↔
      m.value? name = none ∧ ∃ x, m.value? x = some value := by
  have hheld : (∃ x, m.value? x = some value) ↔ m.holder? value ≠ none := by
    rw [ne_eq, h.holder?_eq_none_iff]
    simp
  rw [hheld]
  obtain ⟨hname, hc⟩ | ⟨_, hname, -, hc⟩ | ⟨_, hname, hvalue, hc⟩ | ⟨hname, hvalue, hc⟩ :=
    m.call_cases name value
  · simp [hname, hc]
  · simp [hname, hc]
  · simp [hname, hvalue, hc]
  · simp [hname, hvalue, hc]

end Inverse

end Maps

/-! ## Pairs -/

variable {b : Bindings} {name value : String}

/-- The result of a call, and the bindings afterwards. -/
def call (b : Bindings) : Call → Except UnifyError Unit × Bindings
  | .unify name value =>
    match b.unify name value with
    | .ok b' => (.ok (), b')
    | .error e => (.error e, b)
  | .clear => (.ok (), {})

/-- The bindings after calls, one after the other. -/
def calls (b : Bindings) (cs : List Call) : Bindings := cs.foldl (fun b c => (b.call c).2) b

/-- The pairs, read from either side. -/
def maps (b : Bindings) : Maps := ⟨b.value?, b.holder?⟩

/-- A pair that is appended is written into both maps. -/
theorem maps_append (hname : b.value? name = none) (hvalue : b.holder? value = none) :
    maps ⟨b.pairs ++ [(name, value)]⟩ = b.maps.write name value := by
  unfold maps Maps.write value? holder? at *
  rw [Option.map_eq_none_iff] at hname hvalue
  congr
  · funext x
    by_cases hx : x = name
    · subst hx
      simp [List.find?_append, hname]
    · simp [Function.update_of_ne hx, Ne.symm hx]
  · funext v
    by_cases hv : v = value
    · subst hv
      simp [List.find?_append, hvalue]
    · simp [Function.update_of_ne hv, Ne.symm hv]

/-- A call on the pairs is one on the maps. -/
theorem maps_call (b : Bindings) (c : Call) :
    b.maps.call c = ((b.call c).1, (b.call c).2.maps) := by
  cases c with
  | clear => rfl
  | unify name value =>
    have hvalue? : b.maps.value? = b.value? := rfl
    have hholder? : b.maps.holder? = b.holder? := rfl
    have h := b.maps.call_cases name value
    rw [hvalue?, hholder?] at h
    obtain ⟨hname, hc⟩ | ⟨_, hname, hne, hc⟩ | ⟨_, hname, hvalue, hc⟩ | ⟨hname, hvalue, hc⟩ := h
    · simp [hc, call, unify, hname]
    · simp [hc, call, unify, hname, hne]
    · simp [hc, call, unify, hname, hvalue]
    · simp [hc, call, unify, hname, hvalue, maps_append hname hvalue]

theorem maps_calls (b : Bindings) (cs : List Call) : b.maps.calls cs = (b.calls cs).maps := by
  induction cs generalizing b with
  | nil => rfl
  | cons c cs ih =>
    have hstep := congrArg Prod.snd (b.maps_call c)
    exact (congrArg (Maps.calls · cs) hstep).trans (ih (b.call c).2)

/-- After any calls, the pairs are two maps that are inverse to each other, those that the calls
lead two maps to. A variable then takes a value if it holds it, or if it is free and no variable
holds the value; a conflict says that it holds another one, a collision that another variable holds
the value, and a call that fails leaves both maps as they are. -/
theorem inverse_of_calls (cs : List Call) :
    let b : Bindings := calls {} cs
    let m : Maps := Maps.calls {} cs
    (m.value? = b.value? ∧ m.holder? = b.holder? ∧
      ∀ c, m.call c = ((b.call c).1, (b.call c).2.maps)) ∧
    (∀ name value, b.value? name = some value ↔ b.holder? value = some name) ∧
    (∀ x y value, b.value? x = some value → b.value? y = some value → x = y) ∧
    ∀ name value,
      ((b.call (.unify name value)).1 = .ok () ↔
        b.value? name = some value ∨ b.value? name = none ∧ ∀ x, b.value? x ≠ some value) ∧
      ((b.call (.unify name value)).1 = .error .conflict ↔
        ∃ bound, b.value? name = some bound ∧ bound ≠ value) ∧
      ((b.call (.unify name value)).1 = .error .collision ↔
        b.value? name = none ∧ ∃ x, b.value? x = some value) ∧
      ∀ e, (b.call (.unify name value)).1 = .error e →
        (b.call (.unify name value)).2.value? = b.value? ∧
        (b.call (.unify name value)).2.holder? = b.holder? := by
  intro b m
  have hmaps : m = b.maps := maps_calls {} cs
  have hinv : b.maps.Inverse := hmaps ▸ Maps.inverse_empty.calls cs
  have hcall := b.maps_call
  have hresult : ∀ c, (b.call c).1 = (b.maps.call c).1 := fun c => by rw [hcall]
  refine ⟨⟨?_, ?_, ?_⟩, hinv, fun x y value hx hy => ?_, fun name value => ?_⟩
  · rw [hmaps, maps]
  · rw [hmaps, maps]
  · rw [hmaps]
    exact hcall
  · have hxy := ((hinv x value).1 hx).symm.trans ((hinv y value).1 hy)
    exact Option.some.inj hxy
  · rw [hresult]
    refine ⟨hinv.call_eq_ok_iff, Maps.call_eq_conflict_iff, hinv.call_eq_collision_iff,
      fun e he => ?_⟩
    have hsame : (b.call (.unify name value)).2.maps = b.maps := by
      have hleft := Maps.call_of_error he
      rwa [hcall] at hleft
    exact ⟨congrArg Maps.value? hsame, congrArg Maps.holder? hsame⟩

example : (calls {} [.unify "X" "1", .clear, .unify "Y" "1", .unify "X" "1", .unify "Y" "2",
    .unify "X" "2"]).pairs = [("Y", "1"), ("X", "2")] := by decide

end Bindings

end GrammarInduction
