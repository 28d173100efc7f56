import TagTemplate.Keyed
import TagTemplate.Number.Binary64

/-! JSON values.

An object holds its entries in ascending order of their keys, each key once: the
reader and `Json.ofEntries` build no other. A number is an integer or a double,
and the two are never equal: 1 and 1.0 are different values. -/
namespace TagTemplate

/-- A number of a JSON value. -/
inductive JsonNumber where
  | integer (value : Int)
  | real (value : Number.Binary64)
  deriving DecidableEq, Repr

/-- A JSON value. -/
inductive Json where
  | null
  | bool (value : Bool)
  | number (value : JsonNumber)
  | string (value : String)
  | array (items : List Json)
  | object (entries : List (String × Json))
  deriving Repr

namespace Json

mutual

/-- Whether two values are the same. -/
def same : Json → Json → Bool
  | .null, .null => true
  | .bool a, .bool b => a == b
  | .number a, .number b => a == b
  | .string a, .string b => a == b
  | .array a, .array b => sameItems a b
  | .object a, .object b => sameEntries a b
  | _, _ => false

/-- Whether two lists hold the same values in the same order. -/
def sameItems : List Json → List Json → Bool
  | [], [] => true
  | a :: as, b :: bs => same a b && sameItems as bs
  | _, _ => false

/-- Whether two lists hold the same entries in the same order. -/
def sameEntries : List (String × Json) → List (String × Json) → Bool
  | [], [] => true
  | (k, a) :: as, (l, b) :: bs => k == l && same a b && sameEntries as bs
  | _, _ => false

end

mutual

theorem eq_of_same : ∀ {a b : Json}, same a b = true → a = b
  | .null, b, h => by cases b <;> simp_all [same]
  | .bool _, b, h => by cases b <;> simp_all [same]
  | .number _, b, h => by cases b <;> simp_all [same]
  | .string _, b, h => by cases b <;> simp_all [same]
  | .array as, b, h => by
    cases b <;> simp_all [same]
    exact eq_of_sameItems h
  | .object as, b, h => by
    cases b <;> simp_all [same]
    exact eq_of_sameEntries h

theorem eq_of_sameItems : ∀ {as bs : List Json}, sameItems as bs = true → as = bs
  | [], bs, h => by cases bs <;> simp_all [sameItems]
  | a :: as, bs, h => by
    cases bs <;> simp_all [sameItems]
    exact ⟨eq_of_same h.1, eq_of_sameItems h.2⟩

theorem eq_of_sameEntries :
    ∀ {as bs : List (String × Json)}, sameEntries as bs = true → as = bs
  | [], bs, h => by cases bs <;> simp_all [sameEntries]
  | (k, a) :: as, bs, h => by
    cases bs with
    | nil => simp [sameEntries] at h
    | cons entry bs =>
      obtain ⟨l, b⟩ := entry
      simp only [sameEntries, Bool.and_eq_true, beq_iff_eq] at h
      obtain ⟨⟨rfl, hv⟩, hr⟩ := h
      rw [eq_of_same hv, eq_of_sameEntries hr]

end

mutual

theorem same_self : ∀ a : Json, same a a = true
  | .null => rfl
  | .bool _ | .number _ | .string _ => by simp [same]
  | .array as => by simpa [same] using sameItems_self as
  | .object as => by simpa [same] using sameEntries_self as

theorem sameItems_self : ∀ as : List Json, sameItems as as = true
  | [] => rfl
  | a :: as => by simp [sameItems, same_self a, sameItems_self as]

theorem sameEntries_self : ∀ as : List (String × Json), sameEntries as as = true
  | [] => rfl
  | (_, a) :: as => by simp [sameEntries, same_self a, sameEntries_self as]

end

theorem same_iff {a b : Json} : same a b = true ↔ a = b :=
  ⟨eq_of_same, fun h => h ▸ same_self a⟩

instance : DecidableEq Json := fun _ _ => decidable_of_iff _ same_iff

/-- The object with some entries; of two under one key the later stays. -/
def ofEntries (entries : List (String × Json)) : Json :=
  .object (Keyed.ofList entries)

/-- A natural number as a value. -/
def ofNat (n : Nat) : Json := .number (.integer n)

/-- A text or its absence, which is null. -/
def ofText? : Option String → Json
  | some s => .string s
  | none => .null

/-- The text of a string value. -/
def text? : Json → Option String
  | .string s => some s
  | _ => none

/-- The value of an object under a key. -/
def field? (key : String) : Json → Option Json
  | .object entries => Keyed.get? key entries
  | _ => none

/-- Whether the value is null. -/
def isNull : Json → Bool
  | .null => true
  | _ => false

/-- Whether the value is an array or an object. -/
def isContainer : Json → Bool
  | .array _ | .object _ => true
  | _ => false

end Json

end TagTemplate
