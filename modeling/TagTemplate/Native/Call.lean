import TagTemplate.Json.Printer

/-! Calls: an invocation as its native sees it. -/
namespace TagTemplate

/-- What is known of an invocation besides its arguments. -/
structure Heading where
  /-- The number of the invocation in its program; nested ones come first. -/
  index : Nat
  /-- The name of the function. -/
  name : String
  /-- Whether the value is dropped. -/
  negated : Bool
  /-- Whether a failure goes unreported. -/
  silent : Bool
  /-- What joins the items of an array value, if anything. -/
  count : Option String
  /-- The depth of the program the invocation belongs to. -/
  depth : Nat
  deriving DecidableEq, Repr

/-- What stands for an invocation in the code around it. -/
def placeholder (index : Nat) : String := "[@fn:" ++ toString index ++ "]"

/-- What stands for this invocation in the code around it. -/
def Heading.id (h : Heading) : String := placeholder h.index

/-- A call of a native: the invocation, the number of its written arguments, and
the resolved ones. -/
structure Call where
  heading : Heading
  fieldCount : Nat
  args : List Json
  deriving DecidableEq

namespace Call

/-- A resolved argument; null if there is none. -/
def arg (c : Call) (index : Nat) : Json := (c.args[index]?).getD .null

/-- A resolved argument as text; empty if there is none. -/
def text (c : Call) (index : Nat) : String := (c.arg index).display

end Call

end TagTemplate
