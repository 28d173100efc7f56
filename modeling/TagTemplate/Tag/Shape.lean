import TagTemplate.Tag.Scan
import TagTemplate.Text.Location

/-! Text shaped like a tag, whether or not its name is registered.

The shape is a dollar sign, an ASCII letter or underscore, and as many letters,
digits and underscores as follow; when an opening bracket comes next and a
closing one somewhere after it, the shape goes on through the first closing one. -/
namespace TagTemplate.Tag

/-- Whether a name may begin with a character. -/
def startsName (c : Char) : Bool := c.isAlpha || c == '_'

/-- Whether a name may go on with a character. -/
def continuesName (c : Char) : Bool := c.isAlphanum || c == '_'

/-- The bracketed part at the start of a text, if its bracket is ever closed. -/
def bracketed : List Char → List Char
  | '[' :: cs =>
    let inner := cs.takeWhile (· != ']')
    if inner.length < cs.length then '[' :: (inner ++ [']']) else []
  | _ => []

/-- The shape at the start of a text. -/
def shapeAt : List Char → Option (List Char)
  | '$' :: c :: cs =>
    if startsName c then
      let name := cs.takeWhile continuesName
      some ('$' :: c :: (name ++ bracketed (cs.drop name.length)))
    else none
  | _ => none

/-- The shapes of a text, marked at their first characters. -/
def shapes (s : String) : List (Char × Option (List Char)) :=
  marks shapeAt List.length s.toList

/-- Whether a text contains a shape. -/
def hasShape (s : String) : Bool :=
  (shapes s).any (·.2.isSome)

/-- The bytes that marked shapes take, from an offset on. -/
def spansFrom (offset : Nat) : List (Char × Option (List Char)) → List Text.Span
  | [] => []
  | (c, some shape) :: rest =>
    ⟨offset, offset + Text.byteWidth shape⟩ :: spansFrom (offset + c.utf8Size) rest
  | (c, none) :: rest => spansFrom (offset + c.utf8Size) rest

/-- The bytes that the shapes of a text take. -/
def shapeSpans (s : String) : List Text.Span := spansFrom 0 (shapes s)

end TagTemplate.Tag
