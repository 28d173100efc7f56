import TagTemplate.Run.Deliver

/-! A whole run.

A run that the gates let through executes its program. If every invocation has a
value, the values are put into the template; the text gets one more expansion when
a tag shape in it straddles the pieces it was put together from, since a shape
inside one piece was escaped, is prose, or was expanded already. Then the text is
delivered, unless the context withholds it. A run ends without text when it is
stopped or faults, and with the value of a return signal when there is one; in
these cases nothing is delivered. -/
namespace TagTemplate

namespace Run
variable {σ : Type}

/-- Whether a tag shape of a text straddles the pieces that take the given spans. -/
def straddles (text : String) (pieces : List Text.Span) : Bool :=
  (Tag.shapeSpans text).any fun shape => !pieces.any fun piece => shape.within piece

/-- Puts the values of a pass into the template of its program; `expandAt` and `textAt`
expand the values and the texts that were produced at a depth. -/
def concludeBy (expandAt : Nat → Json → Run σ Json) (textAt : Nat → String → Run σ String)
    (program : Program σ) (values : List Json) : Run σ String := do
  let c ← Timed.get
  let text := program.resolve values
  let text ←
    if c.settings.expand && straddles text (program.template.spans values) then
      textAt program.depth text
    else pure text
  let c ← Timed.get
  if c.withheld then return text
  else
    deliver expandAt text
    return text

/-- Runs the program of the context, given how values and texts are expanded. -/
def wholeBy (expandAt : Nat → Json → Run σ Json) (textAt : Nat → String → Run σ String) :
    Run σ (Option String) := do
  let c ← Timed.get
  if c.passesGates then
    match ← pass (expandAt c.program.depth) c.program (some c.edition) with
    | .ok (.complete values) => do return some (← concludeBy expandAt textAt c.program values)
    | .ok (.giveBack v) => return some v.display
    | _ => return none
  else return none

/-- Puts the values of a pass into the template of its program. -/
def conclude (program : Program σ) (values : List Json) : Run σ String :=
  concludeBy expandAt expandTextAt program values

/-- Runs the program of the context. -/
def whole : Run σ (Option String) := wholeBy expandAt expandTextAt

end Run

/-- Runs a context: the text, and the context afterwards. A run of its own has no
deadline, so it is never abandoned. -/
def Context.run {σ : Type} (c : Context σ) : Option String × Context σ :=
  let (result, after) := Run.whole ⟨none, c⟩
  (result.join, after.state)

end TagTemplate
