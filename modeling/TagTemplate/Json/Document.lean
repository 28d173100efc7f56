import TagTemplate.Json.Basic

/-! JSON documents: what a JSON text says, before it is a value.

A document keeps an object's entries in the order in which they stand, repeated
keys included, and marks what no value can hold: a number too large for a double
and a string with an unpaired surrogate read as `none`. `value?` turns a document
into a value, which succeeds when nothing is marked and no more than the given
number of containers nest. -/
namespace TagTemplate

/-- The content of a JSON text. -/
inductive Document where
  | null
  | bool (value : Bool)
  | number (value : Option JsonNumber)
  | string (value : Option String)
  | array (items : List Document)
  | object (entries : List (Option String × Document))

namespace Document

/-- How many containers may nest in a text that is read as a value. -/
def maxNesting : Nat := 127

mutual

/-- The value of a document in which at most `room` containers nest. -/
def valueWithin (room : Nat) : Document → Option Json
  | .null => some .null
  | .bool b => some (.bool b)
  | .number n => n.map .number
  | .string s => s.map .string
  | .array items => if room == 0 then none else (itemsWithin (room - 1) items).map .array
  | .object entries => if room == 0 then none else (entriesWithin (room - 1) entries).map Json.ofEntries

/-- The values of documents, if each has one. -/
def itemsWithin (room : Nat) : List Document → Option (List Json)
  | [] => some []
  | d :: ds => do
    let v ← valueWithin room d
    let vs ← itemsWithin room ds
    return v :: vs

/-- The entries of an object, if each key and each value can be read. -/
def entriesWithin (room : Nat) : List (Option String × Document) → Option (List (String × Json))
  | [] => some []
  | (k, d) :: ds => do
    let k ← k
    let v ← valueWithin room d
    let vs ← entriesWithin room ds
    return (k, v) :: vs

end

/-- The value of a document. -/
def value? (d : Document) : Option Json := d.valueWithin maxNesting

mutual

/-- The document that says exactly a value. -/
def ofJson : Json → Document
  | .null => .null
  | .bool b => .bool b
  | .number n => .number (some n)
  | .string s => .string (some s)
  | .array items => .array (ofItems items)
  | .object entries => .object (ofFields entries)

/-- The documents of a list of values. -/
def ofItems : List Json → List Document
  | [] => []
  | v :: vs => ofJson v :: ofItems vs

/-- The documents of the entries of an object. -/
def ofFields : List (String × Json) → List (Option String × Document)
  | [] => []
  | (k, v) :: vs => (some k, ofJson v) :: ofFields vs

end

/-- A document that is a text. -/
def text (s : String) : Document := .string (some s)

/-- A document that is a text, or null in its absence. -/
def text? : Option String → Document
  | some s => text s
  | none => .null

/-- A document that is a natural number. -/
def nat (n : Nat) : Document := .number (some (.integer n))

/-- A document that is an object with the entries in the order given. -/
def record (entries : List (String × Document)) : Document :=
  .object (entries.map fun entry => (some entry.1, entry.2))

/-- A document that is an array of texts. -/
def texts (ss : List String) : Document := .array (ss.map text)

end Document

end TagTemplate
