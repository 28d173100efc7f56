import TagTemplate.Json.Document
import TagTemplate.Number.Shortest

/-! JSON text.

A document is written in one of two layouts: compact, without any space, or
indented by two spaces a level with one entry a line, where an empty container
stays on one line. Quotes, backslashes and control characters are escaped, the
five common control characters by their short names; all else stands for itself. -/
namespace TagTemplate

/-- A hexadecimal digit in lower case. -/
def hexDigit (n : Nat) : Char :=
  if n < 10 then Char.ofNat ('0'.toNat + n) else Char.ofNat ('a'.toNat + n - 10)

/-- A character as it is written inside quotes. -/
def escapeChar (c : Char) : List Char :=
  if c == '"' then ['\\', '"']
  else if c == '\\' then ['\\', '\\']
  else if c == '\n' then ['\\', 'n']
  else if c == '\r' then ['\\', 'r']
  else if c == '\t' then ['\\', 't']
  else if c.toNat == 8 then ['\\', 'b']
  else if c.toNat == 12 then ['\\', 'f']
  else if c.toNat < 32 then
    ['\\', 'u', '0', '0', hexDigit (c.toNat / 16), hexDigit (c.toNat % 16)]
  else [c]

/-- A text in quotes. -/
def quoted (s : String) : List Char :=
  '"' :: (s.toList.flatMap escapeChar ++ ['"'])

/-- The text of a number. -/
def JsonNumber.render : JsonNumber → List Char
  | .integer n => (toString n).toList
  | .real x => x.render

/-- How a document is laid out. -/
inductive Layout where
  | compact
  | indented
  deriving DecidableEq

/-- A line break and the indentation of a level; nothing in compact text. -/
def Layout.newline : Layout → Nat → List Char
  | .compact, _ => []
  | .indented, level => '\n' :: List.replicate (2 * level) ' '

/-- What stands between a key and its value. -/
def Layout.colon : Layout → List Char
  | .compact => [':']
  | .indented => [':', ' ']

namespace Document

mutual

/-- A document as it is written at a level of indentation. -/
def renderAt (layout : Layout) (level : Nat) : Document → List Char
  | .null => ['n', 'u', 'l', 'l']
  | .bool true => ['t', 'r', 'u', 'e']
  | .bool false => ['f', 'a', 'l', 's', 'e']
  | .number n => (n.map JsonNumber.render).getD []
  | .string s => quoted (s.getD "")
  | .array [] => ['[', ']']
  | .array (d :: ds) =>
    '[' :: (layout.newline (level + 1) ++ renderAt layout (level + 1) d ++
      (renderItems layout (level + 1) ds ++ (layout.newline level ++ [']'])))
  | .object [] => ['{', '}']
  | .object ((k, d) :: ds) =>
    '{' :: (layout.newline (level + 1) ++ quoted (k.getD "") ++ layout.colon ++
      renderAt layout (level + 1) d ++
      (renderEntries layout (level + 1) ds ++ (layout.newline level ++ ['}'])))

/-- The items of an array after its first. -/
def renderItems (layout : Layout) (level : Nat) : List Document → List Char
  | [] => []
  | d :: ds => ',' :: (layout.newline level ++ renderAt layout level d ++ renderItems layout level ds)

/-- The entries of an object after its first. -/
def renderEntries (layout : Layout) (level : Nat) : List (Option String × Document) → List Char
  | [] => []
  | (k, d) :: ds =>
    ',' :: (layout.newline level ++ quoted (k.getD "") ++ layout.colon ++ renderAt layout level d ++
      renderEntries layout level ds)

end

/-- A document as text. -/
def render (layout : Layout) (d : Document) : String :=
  String.ofList (d.renderAt layout 0)

end Document

/-- A value as compact JSON text. -/
def Json.compact (v : Json) : String :=
  (Document.ofJson v).render .compact

/-- A value as template text: null is empty, a string stands for itself, and
anything else is its compact JSON text. -/
def Json.display : Json → String
  | .null => ""
  | .string s => s
  | v => v.compact

end TagTemplate
