import TagTemplate.Tag.Pattern

/-! Tokens: a template cut into tags, escaped characters and plain characters.

The tags of the whole text are found first; then the text is read from left to
right. A backslash takes the character after it, so a tag whose dollar sign is
escaped is not read, and the text goes on behind that dollar sign. -/
namespace TagTemplate

/-- A piece of source text. -/
inductive Token where
  /-- A tag and the number of the character at which it starts. -/
  | tag (start : Nat) (tag : Tag)
  /-- A backslash and a character; `hidden` says whether a tag was found there. -/
  | escape (hidden : Bool) (c : Char)
  /-- Any other character. -/
  | char (c : Char)
  deriving DecidableEq

namespace Token

/-- The first character of a token as it is written. -/
def lead : Token → Char
  | .tag _ _ => '$'
  | .escape _ _ => '\\'
  | .char c => c

/-- A token as it is written. -/
def spelling : Token → List Char
  | .tag _ t => t.spelling
  | .escape _ c => ['\\', c]
  | .char c => [c]

/-- Whether a tag was found at a token, be it read or escaped. -/
def marksTag : Token → Bool
  | .tag _ _ => true
  | .escape hidden _ => hidden
  | .char _ => false

/-- The tokens of marked characters, of which `skip` belong to the token before;
`pos` is the number of the first. -/
def ofMarks : (skip pos : Nat) → List (Char × Option Tag) → List Token
  | _, _, [] => []
  | skip + 1, pos, _ :: rest => ofMarks skip (pos + 1) rest
  | 0, pos, (_, some t) :: rest => .tag pos t :: ofMarks (t.width - 1) (pos + 1) rest
  | 0, pos, ('\\', none) :: (c, mark) :: rest =>
    .escape mark.isSome c :: ofMarks 1 (pos + 1) ((c, mark) :: rest)
  | 0, pos, (c, none) :: rest => .char c :: ofMarks 0 (pos + 1) rest

@[simp] theorem ofMarks_nil (skip pos : Nat) : ofMarks skip pos [] = [] := by
  cases skip <;> rfl

@[simp] theorem ofMarks_succ (skip pos : Nat) (mark : Char × Option Tag)
    (rest : List (Char × Option Tag)) :
    ofMarks (skip + 1) pos (mark :: rest) = ofMarks skip (pos + 1) rest := rfl

@[simp] theorem ofMarks_some (pos : Nat) (c : Char) (t : Tag) (rest : List (Char × Option Tag)) :
    ofMarks 0 pos ((c, some t) :: rest) = .tag pos t :: ofMarks (t.width - 1) (pos + 1) rest := rfl

@[simp] theorem ofMarks_backslash (pos : Nat) : ofMarks 0 pos [('\\', none)] = [.char '\\'] := rfl

@[simp] theorem ofMarks_escape (pos : Nat) (c : Char) (mark : Option Tag)
    (rest : List (Char × Option Tag)) :
    ofMarks 0 pos (('\\', none) :: (c, mark) :: rest) =
      .escape mark.isSome c :: ofMarks 1 (pos + 1) ((c, mark) :: rest) := rfl

/-- The tokens of a text. -/
def scan (words : List (List Char)) (cs : List Char) : List Token :=
  ofMarks 0 0 (Tag.tagMarks words cs)

end Token

end TagTemplate
