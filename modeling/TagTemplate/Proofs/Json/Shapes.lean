import TagTemplate.Proofs.Json.Strings

/-! Values of the same shape.

Two values have the same shape if they differ in their strings alone: where one has a string,
the other has one too, and all else is the same, the number of items of each array and the keys
of each object included. `Json.Reshaped` says besides how the strings are related. Whatever an
action makes of strings, a value keeps its shape when each string of it is replaced in this way
(`Json.reshaped_of_eachString`). -/
namespace TagTemplate

/-- What comes of an action and one behind it comes of the one behind. -/
theorem Timed.exists_of_bind {S α β : Type} {x : Timed S α} {f : α → Timed S β} {c : Clocked S}
    {b : β} (h : ((x >>= f) c).1 = some b) : ∃ a d, x c = (some a, d) ∧ (f a d).1 = some b := by
  rcases hx : x c with ⟨_ | a, d⟩
  · rw [bind_none hx] at h
    cases h
  · rw [bind_some hx] at h
    exact ⟨a, d, rfl, h⟩

namespace Json

mutual

/-- Whether one value has the shape of another, with strings in the places of strings to which
they are related. -/
inductive Reshaped (R : String → String → Prop) : Json → Json → Prop
  | null : Reshaped R .null .null
  | bool (b : Bool) : Reshaped R (.bool b) (.bool b)
  | number (n : JsonNumber) : Reshaped R (.number n) (.number n)
  | string {s t : String} (related : R s t) : Reshaped R (.string s) (.string t)
  | array {vs ws : List Json} (items : ReshapedItems R vs ws) : Reshaped R (.array vs) (.array ws)
  | object {vs ws : List (String × Json)} (entries : ReshapedEntries R vs ws) :
    Reshaped R (.object vs) (.object ws)

/-- Whether values have the shapes of others, one by one. -/
inductive ReshapedItems (R : String → String → Prop) : List Json → List Json → Prop
  | nil : ReshapedItems R [] []
  | cons {v w : Json} {vs ws : List Json} (first : Reshaped R v w)
    (others : ReshapedItems R vs ws) : ReshapedItems R (v :: vs) (w :: ws)

/-- Whether the values under the same keys have the shapes of others, one by one. -/
inductive ReshapedEntries (R : String → String → Prop) :
    List (String × Json) → List (String × Json) → Prop
  | nil : ReshapedEntries R [] []
  | cons {key : String} {v w : Json} {vs ws : List (String × Json)} (first : Reshaped R v w)
    (others : ReshapedEntries R vs ws) : ReshapedEntries R ((key, v) :: vs) ((key, w) :: ws)

end

section
variable {R : String → String → Prop}

mutual

/-- A value has its own shape. -/
theorem reshaped_self (v : Json) (h : ∀ s ∈ v.strings, R s s) : v.Reshaped R v := by
  match v with
  | .null => exact .null
  | .bool b => exact .bool b
  | .number n => exact .number n
  | .string s => exact .string (h s (List.mem_singleton_self s))
  | .array vs => exact .array (reshapedItems_self vs h)
  | .object vs => exact .object (reshapedEntries_self vs h)

theorem reshapedItems_self (vs : List Json) (h : ∀ s ∈ stringsOfItems vs, R s s) :
    ReshapedItems R vs vs := by
  match vs with
  | [] => exact .nil
  | v :: vs =>
    obtain ⟨hv, hvs⟩ := List.forall_mem_append.1 h
    exact .cons (reshaped_self v hv) (reshapedItems_self vs hvs)

theorem reshapedEntries_self (vs : List (String × Json)) (h : ∀ s ∈ stringsOfEntries vs, R s s) :
    ReshapedEntries R vs vs := by
  match vs with
  | [] => exact .nil
  | (k, v) :: vs =>
    obtain ⟨hv, hvs⟩ := List.forall_mem_append.1 h
    exact .cons (reshaped_self v hv) (reshapedEntries_self vs hvs)

end

/-! ### Replacing strings -/

variable {S : Type} {f : String → Timed S Json}

mutual

/-- Where each string stays, so does the value. -/
theorem eachString_eq_self (v : Json) (h : ∀ s ∈ v.strings, f s = pure (.string s)) :
    v.eachString f = pure v := by
  match v with
  | .null | .bool _ | .number _ => rfl
  | .string s => exact h s (List.mem_singleton_self s)
  | .array vs =>
    rw [eachString, eachStringOfItems_eq_self vs h]
    rfl
  | .object vs =>
    rw [eachString, eachStringOfEntries_eq_self vs h]
    rfl

theorem eachStringOfItems_eq_self (vs : List Json)
    (h : ∀ s ∈ stringsOfItems vs, f s = pure (.string s)) : eachStringOfItems f vs = pure vs := by
  match vs with
  | [] => rfl
  | v :: vs =>
    obtain ⟨hv, hvs⟩ := List.forall_mem_append.1 h
    rw [eachStringOfItems, eachString_eq_self v hv, eachStringOfItems_eq_self vs hvs]
    rfl

theorem eachStringOfEntries_eq_self (vs : List (String × Json))
    (h : ∀ s ∈ stringsOfEntries vs, f s = pure (.string s)) :
    eachStringOfEntries f vs = pure vs := by
  match vs with
  | [] => rfl
  | (k, v) :: vs =>
    obtain ⟨hv, hvs⟩ := List.forall_mem_append.1 h
    rw [eachStringOfEntries, eachString_eq_self v hv, eachStringOfEntries_eq_self vs hvs]
    rfl

end

mutual

/-- **A value keeps its shape** when each string in it is replaced by a string that is related
to it. -/
theorem reshaped_of_eachString (v : Json)
    (hf : ∀ s ∈ v.strings, ∀ c u, (f s c).1 = some u → ∃ t, u = .string t ∧ R s t)
    {c : Clocked S} {w : Json} (h : (v.eachString f c).1 = some w) : v.Reshaped R w := by
  match v with
  | .null =>
    cases h
    exact .null
  | .bool b =>
    cases h
    exact .bool b
  | .number n =>
    cases h
    exact .number n
  | .string s =>
    obtain ⟨t, rfl, hrelated⟩ := hf s (List.mem_singleton_self s) c w h
    exact .string hrelated
  | .array vs =>
    rw [eachString, Timed.bind_pure_apply] at h
    obtain ⟨ws, hws, rfl⟩ := Option.map_eq_some_iff.1 h
    exact .array (reshapedItems_of_eachString vs hf hws)
  | .object vs =>
    rw [eachString, Timed.bind_pure_apply] at h
    obtain ⟨ws, hws, rfl⟩ := Option.map_eq_some_iff.1 h
    exact .object (reshapedEntries_of_eachString vs hf hws)

theorem reshapedItems_of_eachString (vs : List Json)
    (hf : ∀ s ∈ stringsOfItems vs, ∀ c u, (f s c).1 = some u → ∃ t, u = .string t ∧ R s t)
    {c : Clocked S} {ws : List Json} (h : (eachStringOfItems f vs c).1 = some ws) :
    ReshapedItems R vs ws := by
  match vs with
  | [] =>
    cases h
    exact .nil
  | v :: vs =>
    obtain ⟨hv, hvs⟩ := List.forall_mem_append.1 hf
    rw [eachStringOfItems] at h
    obtain ⟨w, d, hfirst, h⟩ := Timed.exists_of_bind h
    rw [Timed.bind_pure_apply] at h
    obtain ⟨ws, hws, rfl⟩ := Option.map_eq_some_iff.1 h
    exact .cons (reshaped_of_eachString v hv (congrArg Prod.fst hfirst))
      (reshapedItems_of_eachString vs hvs hws)

theorem reshapedEntries_of_eachString (vs : List (String × Json))
    (hf : ∀ s ∈ stringsOfEntries vs, ∀ c u, (f s c).1 = some u → ∃ t, u = .string t ∧ R s t)
    {c : Clocked S} {ws : List (String × Json)} (h : (eachStringOfEntries f vs c).1 = some ws) :
    ReshapedEntries R vs ws := by
  match vs with
  | [] =>
    cases h
    exact .nil
  | (k, v) :: vs =>
    obtain ⟨hv, hvs⟩ := List.forall_mem_append.1 hf
    rw [eachStringOfEntries] at h
    obtain ⟨w, d, hfirst, h⟩ := Timed.exists_of_bind h
    rw [Timed.bind_pure_apply] at h
    obtain ⟨ws, hws, rfl⟩ := Option.map_eq_some_iff.1 h
    exact .cons (reshaped_of_eachString v hv (congrArg Prod.fst hfirst))
      (reshapedEntries_of_eachString vs hvs hws)

end

end

end Json

end TagTemplate
