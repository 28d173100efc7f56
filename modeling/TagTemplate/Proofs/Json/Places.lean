import TagTemplate.Proofs.Json.Shapes
import TagTemplate.Proofs.Keyed

/-! Values that differ in some places only.

A place in a value is the way to it: items of arrays by their number, values of objects by their
key. `Json.ReshapedAt` relates values of the same shape like `Json.Reshaped`, but what it asks of
two strings depends on the place where they stand. So it says of a change to a value where it is
made and where not. -/
namespace TagTemplate

namespace Json

/-- Whether the keys of a value, if it is an object, stand in order. The values of JSON texts are
of this kind (`Keyed.ascending_ofList`). -/
def KeysAscend : Json → Prop
  | .object entries => Keyed.Ascending entries
  | _ => True

/-! ### Places -/

/-- A step into a value. -/
inductive Step where
  | item (index : Nat)
  | key (name : String)
  deriving DecidableEq, Repr

/-- What is asked of two strings at a place. -/
abbrev Change := List Step → String → String → Prop

/-- What is asked behind a step. -/
abbrev Change.behind (R : Change) (step : Step) : Change := fun place => R (step :: place)

mutual

/-- Whether one value has the shape of another, with strings in the places of strings of which
that holds which is asked there. -/
inductive ReshapedAt : Change → Json → Json → Prop
  | null {R : Change} : ReshapedAt R .null .null
  | bool {R : Change} (b : Bool) : ReshapedAt R (.bool b) (.bool b)
  | number {R : Change} (n : JsonNumber) : ReshapedAt R (.number n) (.number n)
  | string {R : Change} {s t : String} (related : R [] s t) : ReshapedAt R (.string s) (.string t)
  | array {R : Change} {vs ws : List Json} (items : ReshapedItemsAt R 0 vs ws) :
    ReshapedAt R (.array vs) (.array ws)
  | object {R : Change} {vs ws : List (String × Json)} (entries : ReshapedEntriesAt R vs ws) :
    ReshapedAt R (.object vs) (.object ws)

/-- Whether the items of an array from a number on have the shapes of others, one by one. -/
inductive ReshapedItemsAt : Change → Nat → List Json → List Json → Prop
  | nil {R : Change} {index : Nat} : ReshapedItemsAt R index [] []
  | cons {R : Change} {index : Nat} {v w : Json} {vs ws : List Json}
    (first : ReshapedAt (R.behind (.item index)) v w)
    (others : ReshapedItemsAt R (index + 1) vs ws) : ReshapedItemsAt R index (v :: vs) (w :: ws)

/-- Whether the values under the same keys have the shapes of others, one by one. -/
inductive ReshapedEntriesAt : Change → List (String × Json) → List (String × Json) → Prop
  | nil {R : Change} : ReshapedEntriesAt R [] []
  | cons {R : Change} {key : String} {v w : Json} {vs ws : List (String × Json)}
    (first : ReshapedAt (R.behind (.key key)) v w) (others : ReshapedEntriesAt R vs ws) :
    ReshapedEntriesAt R ((key, v) :: vs) ((key, w) :: ws)

end

mutual

/-- What is asked may be replaced by something weaker. -/
theorem ReshapedAt.mono {R R' : Change} {v w : Json} (h : v.ReshapedAt R w)
    (hR : ∀ place s t, R place s t → R' place s t) : v.ReshapedAt R' w := by
  match h with
  | .null => exact .null
  | .bool b => exact .bool b
  | .number n => exact .number n
  | .string related => exact .string (hR _ _ _ related)
  | .array items => exact .array (items.mono fun _ place => hR _)
  | .object entries => exact .object (entries.mono fun _ place => hR _)

theorem ReshapedItemsAt.mono {R R' : Change} {index : Nat} {vs ws : List Json}
    (h : ReshapedItemsAt R index vs ws)
    (hR : ∀ n place s t, R (.item n :: place) s t → R' (.item n :: place) s t) :
    ReshapedItemsAt R' index vs ws := by
  match h with
  | .nil => exact .nil
  | .cons first others => exact .cons (first.mono (hR index)) (others.mono hR)

theorem ReshapedEntriesAt.mono {R R' : Change} {vs ws : List (String × Json)}
    (h : ReshapedEntriesAt R vs ws)
    (hR : ∀ k place s t, R (.key k :: place) s t → R' (.key k :: place) s t) :
    ReshapedEntriesAt R' vs ws := by
  match h with
  | .nil => exact .nil
  | .cons first others => exact .cons (first.mono (hR _)) (others.mono hR)

end

mutual

/-- One change after another. -/
theorem ReshapedAt.trans {R R' R'' : Change} {u v w : Json} (h : u.ReshapedAt R v)
    (h' : v.ReshapedAt R' w)
    (hR : ∀ place s t r, R place s t → R' place t r → R'' place s r) : u.ReshapedAt R'' w := by
  match h, h' with
  | .null, .null => exact .null
  | .bool b, .bool _ => exact .bool b
  | .number n, .number _ => exact .number n
  | .string first, .string second => exact .string (hR _ _ _ _ first second)
  | .array first, .array second => exact .array (first.trans second fun _ _ => hR _)
  | .object first, .object second => exact .object (first.trans second fun _ _ => hR _)

theorem ReshapedItemsAt.trans {R R' R'' : Change} {index : Nat} {us vs ws : List Json}
    (h : ReshapedItemsAt R index us vs) (h' : ReshapedItemsAt R' index vs ws)
    (hR : ∀ n place s t r,
      R (.item n :: place) s t → R' (.item n :: place) t r → R'' (.item n :: place) s r) :
    ReshapedItemsAt R'' index us ws := by
  match h, h' with
  | .nil, .nil => exact .nil
  | .cons first others, .cons first' others' =>
    exact .cons (first.trans first' (hR index)) (others.trans others' hR)

theorem ReshapedEntriesAt.trans {R R' R'' : Change} {us vs ws : List (String × Json)}
    (h : ReshapedEntriesAt R us vs) (h' : ReshapedEntriesAt R' vs ws)
    (hR : ∀ k place s t r,
      R (.key k :: place) s t → R' (.key k :: place) t r → R'' (.key k :: place) s r) :
    ReshapedEntriesAt R'' us ws := by
  match h, h' with
  | .nil, .nil => exact .nil
  | .cons first others, .cons first' others' =>
    exact .cons (first.trans first' (hR _)) (others.trans others' hR)

end

mutual

/-- A value has its own shape, where a string may stay in each place. -/
theorem reshapedAt_self {R : Change} (v : Json) (h : ∀ place s, R place s s) :
    v.ReshapedAt R v := by
  match v with
  | .null => exact .null
  | .bool b => exact .bool b
  | .number n => exact .number n
  | .string s => exact .string (h [] s)
  | .array vs => exact .array (reshapedItemsAt_self vs fun _ _ => h _)
  | .object vs => exact .object (reshapedEntriesAt_self vs fun _ _ _ => h _)

theorem reshapedItemsAt_self {R : Change} {index : Nat} (vs : List Json)
    (h : ∀ n place s, R (.item n :: place) s s) : ReshapedItemsAt R index vs vs := by
  match vs with
  | [] => exact .nil
  | v :: vs => exact .cons (reshapedAt_self v (h index)) (reshapedItemsAt_self vs h)

theorem reshapedEntriesAt_self {R : Change} (vs : List (String × Json))
    (h : ∀ k ∈ Keyed.keys vs, ∀ place s, R (.key k :: place) s s) : ReshapedEntriesAt R vs vs := by
  match vs with
  | [] => exact .nil
  | (k, v) :: vs =>
    obtain ⟨hv, hvs⟩ := List.forall_mem_cons.1 h
    exact .cons (reshapedAt_self v hv) (reshapedEntriesAt_self vs hvs)

end

/-- The keys of an object stay. -/
theorem ReshapedEntriesAt.keys_eq {R : Change} {vs ws : List (String × Json)}
    (h : ReshapedEntriesAt R vs ws) :
    Keyed.keys ws = Keyed.keys vs := by
  induction vs generalizing ws with
  | nil =>
    cases h
    rfl
  | cons entry vs ih =>
    cases h with
    | cons _ others => exact congrArg (_ :: ·) (ih others)

/-- Putting a value in the place of another under a key changes nothing under other keys. -/
theorem ReshapedEntriesAt.insert {R : Change} {key : String} {v w : Json}
    {entries : List (String × Json)}
    (hentries : Keyed.Ascending entries) (hget : Keyed.get? key entries = some v)
    (hkey : v.ReshapedAt (R.behind (.key key)) w)
    (hothers : ∀ k place s, k ≠ key → R (.key k :: place) s s) :
    ReshapedEntriesAt R entries (Keyed.insert key w entries) := by
  induction entries with
  | nil => cases hget
  | cons entry rest ih =>
    obtain ⟨hfirst, hrest⟩ := List.pairwise_cons.1 hentries
    rw [Keyed.get?] at hget
    rw [Keyed.insert]
    split at hget
    · rename_i hk
      rw [if_pos hk]
      cases hget
      obtain ⟨k, v⟩ := entry
      cases eq_of_beq hk
      -- The other keys come behind this one, so it is not among them.
      refine .cons hkey (reshapedEntriesAt_self rest fun k hk place s => ?_)
      exact hothers k place s fun h => String.lt_irrefl k (h ▸ hfirst k hk)
    · rename_i hk
      have hlt : entry.1 < key := hfirst key (Keyed.mem_keys_of_get? hget)
      rw [if_neg hk, if_neg (String.lt_asymm hlt)]
      refine .cons (reshapedAt_self _ fun place s => ?_) (ih hrest hget)
      exact hothers _ place s fun h => hk (beq_iff_eq.2 h.symm)

end Json

end TagTemplate
