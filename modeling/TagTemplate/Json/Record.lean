import TagTemplate.Json.Document

/-! Records in JSON.

A record is written as an object or as an array. In an object the declared
fields stand under their names in any order, others are skipped, and a declared
field that stands twice spoils the record. In an array the fields stand in
declaration order, the last ones may be missing, and more items than fields
spoil it. -/
namespace TagTemplate

/-- The fields of a record as they were written. -/
structure Record where
  /-- Whether the record was an array. -/
  positional : Bool
  /-- The declared fields in order, with nothing for a missing one. -/
  fields : List (Option Document)

namespace Document

/-- The keys of an object's entries, if each can be read. -/
def keys? : List (Option String × Document) → Option (List String)
  | [] => some []
  | (k, _) :: entries => do
    let k ← k
    let ks ← keys? entries
    return k :: ks

/-- The documents that stand under a key. -/
def entriesUnder (name : String) (entries : List (Option String × Document)) : List Document :=
  (entries.filter fun entry => entry.1 == some name).map (·.2)

/-- The fields declared by `names` of a record. -/
def record? (names : List String) : Document → Option Record
  | .object entries =>
    let found := names.map fun name => entriesUnder name entries
    if (keys? entries).isSome && found.all (·.length ≤ 1) then some ⟨false, found.map (·.head?)⟩
    else none
  | .array items =>
    if items.length ≤ names.length then
      some ⟨true, items.map some ++ List.replicate (names.length - items.length) none⟩
    else none
  | _ => none

/-- The truth value of a document. -/
def bool? : Document → Option Bool
  | .bool b => some b
  | _ => none

/-- The natural number of 64 bits that a document is. -/
def word? : Document → Option Nat
  | .number (some (.integer n)) => if 0 ≤ n && n < Nat.pow 2 64 then some n.toNat else none
  | _ => none

/-- The text that a document is. -/
def string? : Document → Option String
  | .string s => s
  | _ => none

/-- The items of an array, each read by `item?`. -/
def list? {α : Type} (item? : Document → Option α) : Document → Option (List α)
  | .array items => items.mapM item?
  | _ => none

/-- What a document holds, where null holds nothing. -/
def option? {α : Type} (item? : Document → Option α) : Document → Option (Option α)
  | .null => some none
  | d => (item? d).map some

end Document

/-- The field at a position, read by `read?`; `absent` when it is missing. -/
def Record.get? {α : Type} (r : Record) (position : Nat) (read? : Document → Option α)
    (absent : Option α) : Option α :=
  match r.fields[position]? with
  | some (some d) => read? d
  | _ => absent

end TagTemplate
