import TagTemplate.Proofs.Json.Strings
import TagTemplate.Proofs.Run.Resolved

/-! Expansions that find nothing.

Expanding a value notes what it finds before it runs it, and a note is never taken back. So
each step of an expansion either finds a function, or runs nothing at all and leaves the
context as it is: `Run.Spares`. What an expansion that finds nothing may still do is to
respell. A string that is the JSON text of an array or object is read for the strings in it
and written again, compactly and with its keys in order, also when none of these strings has
changed. `Run.expandAt_of_discovered_eq`: an expansion that finds nothing does no more. -/
namespace TagTemplate

namespace Json

/-! ### Respelling -/

mutual

/-- Replaces each string of a value. -/
def mapStrings (f : String → String) : Json → Json
  | .string s => .string (f s)
  | .array items => .array (mapStringsOfItems f items)
  | .object entries => .object (mapStringsOfEntries f entries)
  | v => v

/-- Replaces each string of some values. -/
def mapStringsOfItems (f : String → String) : List Json → List Json
  | [] => []
  | v :: vs => mapStrings f v :: mapStringsOfItems f vs

/-- Replaces each string in the values of some entries. -/
def mapStringsOfEntries (f : String → String) : List (String × Json) → List (String × Json)
  | [] => []
  | (k, v) :: vs => (k, mapStrings f v) :: mapStringsOfEntries f vs

end

/-- Writes the text of an array or object anew if it has a tag shape, and the texts in it
likewise; `fuel` counts down with the texts in texts. -/
def respellWithin : (fuel : Nat) → String → String
  | 0, s => s
  | fuel + 1, s =>
    if !Tag.hasShape s then s
    else
      match containerIn s with
      | some v => (v.mapStrings (respellWithin fuel)).compact
      | none => s

/-- Writes the text of an array or object anew if it has a tag shape, and the texts in it
likewise. -/
def respell (s : String) : String := respellWithin (s.length + 1) s

/-- A value with the JSON texts in it written anew. -/
def respelled (v : Json) : Json := v.mapStrings respell

section
variable {f g : String → String}

mutual

theorem mapStrings_congr (v : Json) (h : ∀ s ∈ v.strings, f s = g s) :
    v.mapStrings f = v.mapStrings g := by
  match v with
  | .null | .bool _ | .number _ => rfl
  | .string s => exact congrArg Json.string (h s (List.mem_singleton_self s))
  | .array items => rw [mapStrings, mapStrings, mapStringsOfItems_congr items h]
  | .object entries => rw [mapStrings, mapStrings, mapStringsOfEntries_congr entries h]

theorem mapStringsOfItems_congr (vs : List Json) (h : ∀ s ∈ stringsOfItems vs, f s = g s) :
    mapStringsOfItems f vs = mapStringsOfItems g vs := by
  match vs with
  | [] => rfl
  | v :: vs =>
    obtain ⟨hv, hvs⟩ := List.forall_mem_append.1 h
    rw [mapStringsOfItems, mapStringsOfItems, mapStrings_congr v hv, mapStringsOfItems_congr vs hvs]

theorem mapStringsOfEntries_congr (vs : List (String × Json))
    (h : ∀ s ∈ stringsOfEntries vs, f s = g s) :
    mapStringsOfEntries f vs = mapStringsOfEntries g vs := by
  match vs with
  | [] => rfl
  | (k, v) :: vs =>
    obtain ⟨hv, hvs⟩ := List.forall_mem_append.1 h
    rw [mapStringsOfEntries, mapStringsOfEntries, mapStrings_congr v hv,
      mapStringsOfEntries_congr vs hvs]

end

end

mutual

theorem mapStrings_id (v : Json) : v.mapStrings id = v := by
  match v with
  | .null | .bool _ | .number _ | .string _ => rfl
  | .array items => rw [mapStrings, mapStringsOfItems_id items]
  | .object entries => rw [mapStrings, mapStringsOfEntries_id entries]

theorem mapStringsOfItems_id (vs : List Json) : mapStringsOfItems id vs = vs := by
  match vs with
  | [] => rfl
  | v :: vs => rw [mapStringsOfItems, mapStrings_id v, mapStringsOfItems_id vs]

theorem mapStringsOfEntries_id (vs : List (String × Json)) : mapStringsOfEntries id vs = vs := by
  match vs with
  | [] => rfl
  | (k, v) :: vs => rw [mapStringsOfEntries, mapStrings_id v, mapStringsOfEntries_id vs]

end

theorem respellWithin_of_containerIn (fuel : Nat) {s : String} {v : Json}
    (hshape : Tag.hasShape s = true) (hin : containerIn s = some v) :
    respellWithin (fuel + 1) s = (v.mapStrings (respellWithin fuel)).compact := by
  rw [respellWithin, hshape, hin]
  rfl

theorem respellWithin_eq_self (fuel : Nat) {s : String}
    (h : Tag.hasShape s = true → containerIn s = none) : respellWithin fuel s = s := by
  cases fuel with
  | zero => rfl
  | succ fuel =>
    rw [respellWithin]
    cases hshape : Tag.hasShape s with
    | false => rfl
    | true =>
      rw [h hshape]
      rfl

/-- The texts in a string are shorter than the string, so more fuel than its length is
enough. -/
theorem respellWithin_eq {fuel fuel' : Nat} {s : String} (h : s.length < fuel)
    (h' : s.length < fuel') : respellWithin fuel s = respellWithin fuel' s := by
  induction fuel generalizing fuel' s with
  | zero => exact absurd h (Nat.not_lt_zero _)
  | succ fuel ih =>
    obtain ⟨fuel', rfl⟩ : ∃ n, fuel' = n + 1 := ⟨fuel' - 1, by omega⟩
    by_cases hplain : Tag.hasShape s = true → containerIn s = none
    · rw [respellWithin_eq_self _ hplain, respellWithin_eq_self _ hplain]
    · obtain ⟨hshape, hin⟩ := Classical.not_imp.1 hplain
      obtain ⟨v, hin⟩ := Option.ne_none_iff_exists'.1 hin
      have hshort := length_lt_of_containerIn hin
      rw [respellWithin_of_containerIn _ hshape hin, respellWithin_of_containerIn _ hshape hin]
      refine congrArg compact (mapStrings_congr v fun t ht => ?_)
      have := hshort t ht
      exact ih (by omega) (by omega)

/-- A text is respelled by writing the value in it, with the texts in that value respelled. -/
theorem respell_of_containerIn {s : String} {v : Json} (hshape : Tag.hasShape s = true)
    (hin : containerIn s = some v) : respell s = v.respelled.compact := by
  rw [respell, respellWithin_of_containerIn _ hshape hin]
  refine congrArg compact (mapStrings_congr v fun t ht => ?_)
  exact respellWithin_eq (length_lt_of_containerIn hin t ht) (Nat.lt_succ_self _)

/-- Any other string keeps its spelling. -/
theorem respell_eq_self {s : String} (h : Tag.hasShape s = true → containerIn s = none) :
    respell s = s :=
  respellWithin_eq_self _ h

/-- A value without JSON texts to respell keeps its spelling. -/
theorem respelled_eq_self {v : Json}
    (h : ∀ s ∈ v.strings, Tag.hasShape s = true → containerIn s = none) : v.respelled = v := by
  rw [respelled, mapStrings_congr v fun s hs => respell_eq_self (h s hs)]
  exact mapStrings_id v

end Json

namespace Run
variable {σ α β : Type}

/-! ### Actions that find something or do nothing -/

/-- Whether an action finds some function. -/
def Finds (x : Run σ α) (c : Clocked (Context σ)) : Prop :=
  ∃ name names, (x c).2.state.session.discovered = c.state.session.discovered ++ name :: names

/-- Whether an action has a given result and leaves the context as it is, unless it finds
some function. -/
def Spares (x : Run σ α) (a : α) : Prop := ∀ c, x c = (some a, c) ∨ Finds x c

/-- What an action finds stays found. -/
theorem Finds.bind {x : Run σ α} {f : α → Run σ β} {c : Clocked (Context σ)} (hx : Finds x c)
    (hf : ∀ a, Quiet (f a)) : Finds (x >>= f) c := by
  obtain ⟨name, names, hfound⟩ := hx
  rcases h : x c with ⟨_ | a, d⟩
  · refine ⟨name, names, ?_⟩
    rw [Timed.bind_none h]
    rwa [h] at hfound
  · obtain ⟨later, hlater⟩ := Context.GoesOn.discovered ((hf a).goesOn d)
    refine ⟨name, names ++ later, ?_⟩
    rw [h] at hfound
    rw [Timed.bind_some h, hlater, hfound, List.append_assoc, List.cons_append]

theorem Spares.pure (a : α) : Spares (Pure.pure a : Run σ α) a := fun _ => .inl rfl

theorem Spares.bind {x : Run σ α} {f : α → Run σ β} {a : α} {b : β} (hx : Spares x a)
    (hfa : Spares (f a) b) (hf : ∀ a, Quiet (f a)) : Spares (x >>= f) b := by
  intro c
  rcases hx c with hnothing | hfinds
  · have hgoes : (x >>= f) c = f a c := Timed.bind_some hnothing
    rcases hfa c with hb | hfinds
    · exact .inl (hgoes.trans hb)
    · refine .inr ?_
      rwa [Finds, hgoes]
  · exact .inr (hfinds.bind hf)

theorem Spares.map {x : Run σ α} {a : α} (hx : Spares x a) (g : α → β) :
    Spares (x >>= fun a => Pure.pure (g a)) (g a) :=
  hx.bind (.pure _) fun _ => .pure _

/-! ### Values -/

section
variable {f : String → Run σ Json} {g : String → String}

mutual

theorem spares_eachString (hf : ∀ s, Quiet (f s)) (hg : ∀ s, Spares (f s) (.string (g s)))
    (v : Json) : Spares (v.eachString f) (v.mapStrings g) := by
  match v with
  | .null => exact .pure _
  | .bool _ => exact .pure _
  | .number _ => exact .pure _
  | .string s => exact hg s
  | .array items =>
    rw [Json.eachString]
    exact (spares_eachStringOfItems hf hg items).map Json.array
  | .object entries =>
    rw [Json.eachString]
    exact (spares_eachStringOfEntries hf hg entries).map Json.object

theorem spares_eachStringOfItems (hf : ∀ s, Quiet (f s))
    (hg : ∀ s, Spares (f s) (.string (g s))) (vs : List Json) :
    Spares (Json.eachStringOfItems f vs) (Json.mapStringsOfItems g vs) := by
  match vs with
  | [] => exact .pure _
  | v :: vs =>
    rw [Json.eachStringOfItems]
    have hrest (w : Json) : Quiet (Json.eachStringOfItems f vs >>= fun ws => pure (w :: ws)) :=
      (Quiet.rules.eachStringOfItems hf vs).bind fun _ => .pure _
    exact (spares_eachString hf hg v).bind ((spares_eachStringOfItems hf hg vs).map _) hrest

theorem spares_eachStringOfEntries (hf : ∀ s, Quiet (f s))
    (hg : ∀ s, Spares (f s) (.string (g s))) (vs : List (String × Json)) :
    Spares (Json.eachStringOfEntries f vs) (Json.mapStringsOfEntries g vs) := by
  match vs with
  | [] => exact .pure _
  | (k, v) :: vs =>
    rw [Json.eachStringOfEntries]
    have hrest (w : Json) :
        Quiet (Json.eachStringOfEntries f vs >>= fun ws => pure ((k, w) :: ws)) :=
      (Quiet.rules.eachStringOfEntries hf vs).bind fun _ => .pure _
    exact (spares_eachString hf hg v).bind ((spares_eachStringOfEntries hf hg vs).map _) hrest

end

end

/-- A text is run where it has invocations, and then they are found. -/
theorem spares_expandTextAt (depth : Nat) (s : String) :
    Spares (expandTextAt depth s : Run σ String) s := by
  intro c
  by_cases hinvokes : c.state.Invokes depth s
  · exact .inr (expandTextAt_of_invokes hinvokes)
  · exact .inl (expandTextAt_of_not_invokes hinvokes)

theorem spares_expandString {text : String → Run σ String} (htext : ∀ s, Spares (text s) s)
    (hquiet : ∀ s, Quiet (text s)) (fuel : Nat) (s : String) :
    Spares (expandString text fuel s) (.string (Json.respellWithin fuel s)) := by
  induction fuel generalizing s with
  | zero => exact .pure _
  | succ fuel ih =>
    rw [expandString]
    split
    · rename_i hplain
      have hshape : Tag.hasShape s = false := by simpa using hplain
      rw [Json.respellWithin_eq_self _ fun h => absurd (hshape.symm.trans h) Bool.false_ne_true]
      exact .pure _
    · rename_i hshape
      cases hin : Json.containerIn s with
      | none =>
        rw [Json.respellWithin_eq_self _ fun _ => hin]
        exact (htext s).map Json.string
      | some v =>
        rw [Json.respellWithin_of_containerIn _ (by simpa using hshape) hin]
        have hstrings := spares_eachString (Quiet.rules.expandString hquiet fuel) ih v
        exact hstrings.map fun w => Json.string w.compact

/-- Where the settings ask for expansion, each string is expanded. -/
theorem expandAt_of_expand {c : Clocked (Context σ)} (depth : Nat) (v : Json)
    (hexpand : c.state.settings.expand = true) :
    expandAt depth v c =
      (v.eachString fun s => expandString (expandTextAt depth) (s.length + 1) s) c := by
  rw [expandAt, expandWith, Timed.bind_some (Timed.get_apply c), if_pos hexpand]

/-- Where the settings ask for expansion, a value is respelled if nothing is found in it. -/
theorem spares_expandAt {c : Clocked (Context σ)} (depth : Nat) (v : Json)
    (hexpand : c.state.settings.expand = true) :
    expandAt depth v c = (some v.respelled, c) ∨ Finds (expandAt depth v) c := by
  have hstrings : Spares
      (v.eachString fun s => expandString (σ := σ) (expandTextAt depth) (s.length + 1) s)
      v.respelled :=
    spares_eachString (fun s => Quiet.rules.expandString (Quiet.rules.expandTextAt depth) _ s)
      (fun s => spares_expandString (spares_expandTextAt depth)
        (Quiet.rules.expandTextAt depth) _ s) v
  rw [Finds, expandAt_of_expand depth v hexpand]
  exact hstrings c

theorem expandAt_of_not_expand {c : Clocked (Context σ)} (depth : Nat) (v : Json)
    (hexpand : c.state.settings.expand = false) : expandAt depth v c = (some v, c) := by
  rw [expandAt, expandWith, Timed.bind_some (Timed.get_apply c), hexpand]
  rfl

/-- **An expansion that finds nothing changes nothing but the spelling of JSON texts.** It
leaves the context as it is, and the value with, at most, the texts of arrays and objects in
it that have a tag shape written anew; below the greatest depth these are. Where there is no
such text, or the settings ask for no expansion, it leaves the value as it is. -/
theorem expandAt_of_discovered_eq {c : Clocked (Context σ)} {depth : Nat} {v : Json}
    (h : (expandAt depth v c).2.state.session.discovered = c.state.session.discovered) :
    ∃ w, expandAt depth v c = (some w, c) ∧ (w = v ∨ w = v.respelled) ∧
      (c.state.settings.expand = true → depth < c.state.settings.maxDepth → w = v.respelled) ∧
      (c.state.settings.expand = false → w = v) ∧
      ((∀ s ∈ v.strings, Tag.hasShape s = true → Json.containerIn s = none) → w = v) := by
  cases hexpand : c.state.settings.expand with
  | false => exact ⟨v, expandAt_of_not_expand depth v hexpand, .inl rfl, nofun, fun _ => rfl,
      fun _ => rfl⟩
  | true =>
    rcases spares_expandAt depth v hexpand with hspared | ⟨name, names, hfound⟩
    · exact ⟨v.respelled, hspared, .inr rfl, fun _ _ => rfl, nofun, Json.respelled_eq_self⟩
    · rw [h] at hfound
      exact absurd (List.append_right_eq_self.1 hfound.symm) (List.cons_ne_nil _ _)

/-- A text without functions in a JSON text: nothing is found, and the blank after the colon
goes. -/
theorem expandAt_respells :
    let c : Clocked (Context Unit) := ⟨none, { program := ⟨"", none, "", [], ⟨[]⟩, 0⟩
                                               vocabulary := .empty
                                               memory := () }⟩
    let v : Json := .string "\x7b\"a\": \"$x\"\x7d"
    (expandAt 0 v c).2.state.session.discovered = c.state.session.discovered ∧
      expandAt 0 v c = (some (.string "\x7b\"a\":\"$x\"\x7d"), c) := by
  intro c v
  have hfinds : (expandAt 0 v c).2.state.session.discovered = c.state.session.discovered := by
    decide +kernel
  obtain ⟨w, hw, -, hrespelled, -⟩ := expandAt_of_discovered_eq hfinds
  have hspelling : v.respelled = .string "\x7b\"a\":\"$x\"\x7d" := by decide +kernel
  refine ⟨hfinds, ?_⟩
  rw [hw, hrespelled rfl (by decide), hspelling]

/-- So an expansion that finds nothing may change the value. -/
theorem expandAt_ne_self :
    let c : Clocked (Context Unit) := ⟨none, { program := ⟨"", none, "", [], ⟨[]⟩, 0⟩
                                               vocabulary := .empty
                                               memory := () }⟩
    let v : Json := .string "\x7b\"a\": \"$x\"\x7d"
    (expandAt 0 v c).2.state.session.discovered = c.state.session.discovered ∧
      (expandAt 0 v c).1 ≠ some v := by
  decide +kernel

end Run

end TagTemplate
