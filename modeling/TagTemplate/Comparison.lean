import TagTemplate.Number.Numeral

/-! Comparisons.

A condition compares two texts by one of six operators, or tests a lone text
against the word `true`. Equality is equality of texts; order is order of the
numbers the texts stand for, so a text that is no number is never in order. -/
namespace TagTemplate

/-- How the two sides of a condition are compared. -/
inductive Operator where
  | eq
  | ne
  | le
  | ge
  | gt
  | lt
  /-- No comparison: the left side alone is tested. -/
  | unknown
  deriving DecidableEq, Repr

namespace Operator

/-- Every operator, the test of a lone side last. -/
def all : List Operator := [.eq, .ne, .le, .ge, .gt, .lt, .unknown]

/-- The operator as it is written between its two sides. -/
def token : Operator → List Char
  | .eq => ['=', '=']
  | .ne => ['!', '=']
  | .le => ['<', '=']
  | .ge => ['>', '=']
  | .gt => ['>']
  | .lt => ['<']
  | .unknown => []

/-- The number of characters of the written operator. -/
def width (op : Operator) : Nat := op.token.length

/-- The name of an operator in a printed program. -/
def name : Operator → String
  | .eq => "eq"
  | .ne => "ne"
  | .le => "le"
  | .ge => "ge"
  | .gt => "gt"
  | .lt => "lt"
  | .unknown => "unknown"

/-- The operator a text begins with; of two the longer is read. -/
def scan : List Char → Option Operator
  | '=' :: '=' :: _ => some .eq
  | '!' :: '=' :: _ => some .ne
  | '<' :: '=' :: _ => some .le
  | '>' :: '=' :: _ => some .ge
  | '>' :: _ => some .gt
  | '<' :: _ => some .lt
  | _ => none

/-- Whether two texts both are numbers that stand in a relation. -/
def ordered (relation : Number.Extended → Number.Extended → Bool) (lhs rhs : String) : Bool :=
  match Number.ofText lhs, Number.ofText rhs with
  | some a, some b => relation a b
  | _, _ => false

/-- Whether a comparison holds; a missing right side counts as empty. -/
def holds (op : Operator) (lhs : String) (rhs : Option String) : Bool :=
  let rhs := rhs.getD ""
  match op with
  | .unknown => lhs == "true"
  | .eq => lhs == rhs
  | .ne => lhs != rhs
  | .le => ordered Number.Extended.le lhs rhs
  | .ge => ordered Number.Extended.le rhs lhs
  | .gt => ordered Number.Extended.lt rhs lhs
  | .lt => ordered Number.Extended.lt lhs rhs

theorem scan_token_append (op : Operator) (h : op ≠ .unknown) (rest : List Char)
    (hr : rest.head? ≠ some '=') : scan (op.token ++ rest) = some op := by
  cases op <;> first | rfl | exact absurd rfl h | skip
  all_goals
    cases rest with
    | nil => rfl
    | cons c cs =>
      have hc : c ≠ '=' := by simpa using hr
      unfold token scan
      simp [hc]

end Operator

end TagTemplate
