import TagTemplate.Native.Behaviour
import TagTemplate.Tag.Pattern

/-! Vocabularies: the functions that a template may call.

A vocabulary is built once from a list of natives. Of two natives with one name
the later stays, and so does the later of two equal aliases; names are looked up
before aliases. The words of all names and aliases, longest first, are what the
tags of a template are matched against. -/
namespace TagTemplate

/-- The functions that a template may call. -/
structure Vocabulary (σ : Type) where
  /-- The natives under their normal names. -/
  natives : Keyed (Native σ)
  /-- The normal names that aliases stand for. -/
  aliases : Keyed String
  /-- The words of tags, in the order in which they are tried. -/
  words : List (List Char)

namespace Vocabulary
variable {σ : Type}

/-- Whether a word is tried before another: a longer one first, and words of one
length in ascending order. -/
def precedes (a b : List Char) : Bool :=
  b.length < a.length || (a.length == b.length && String.ofList a < String.ofList b)

/-- Puts a word into its place, unless it is there already. -/
def insertWord (word : List Char) : List (List Char) → List (List Char)
  | [] => [word]
  | other :: words =>
    if word == other then other :: words
    else if precedes word other then word :: other :: words
    else other :: insertWord word words

/-- The words of some names: without leading dollar signs, and not empty. -/
def wordsOf (names : List String) : List (List Char) :=
  (names.map fun name => (bareName name).toList).foldl
    (fun words word => if word.isEmpty then words else insertWord word words) []

/-- The vocabulary without functions. -/
def empty : Vocabulary σ := ⟨[], [], []⟩

/-- The vocabulary of some natives; later ones replace earlier ones. -/
def ofNatives (natives : List (Native σ)) : Vocabulary σ :=
  let names := natives.map fun n => (normalise n.signature.name, n)
  let aliases := natives.flatMap fun n =>
    n.signature.aliases.map fun other => (normalise other, normalise n.signature.name)
  let names := Keyed.ofList names
  let aliases := Keyed.ofList aliases
  ⟨names, aliases, wordsOf (names.keys ++ aliases.keys)⟩

/-- The native that answers to a name. -/
def resolve (v : Vocabulary σ) (name : String) : Option (Native σ) :=
  let name := normalise name
  (v.natives.get? name).or ((v.aliases.get? name).bind fun canonical => v.natives.get? canonical)

/-- The number of functions, without aliases. -/
def size (v : Vocabulary σ) : Nat := v.natives.length

/-- The normal names in ascending order. -/
def names (v : Vocabulary σ) : List String := v.natives.keys

/-- The natives in ascending order of their names. -/
def functions (v : Vocabulary σ) : List (Native σ) := v.natives.map (·.2)

/-- The tags of a text; nothing when there is no word to match. -/
def tags? (v : Vocabulary σ) (text : String) : Option (List (Text.Span × Tag)) :=
  if v.words.isEmpty then none else some (Tag.located 0 (Tag.tagMarks v.words text.toList))

end Vocabulary

end TagTemplate
