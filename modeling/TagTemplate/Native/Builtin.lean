import TagTemplate.Native.Behaviour

/-! The built-in natives: variables, a conditional and the two control signals. -/
namespace TagTemplate.Builtin
variable {σ : Type}

/-- The native `$let[name;value]` sets a variable; its name must not be empty. -/
def letNative : Native σ where
  signature :=
    { Signature.named "$let" ["$setvar"] with
      args := some ⟨true, [{ name := "name" }, { name := "value" }]⟩ }
  audited := false
  behave call :=
    if (call.text 0).isEmpty then .fail "Variable name must not be empty"
    else .assign (call.text 0) (call.arg 1) (.succeed .null)

/-- The native `$get[name]` reads a variable; an unknown one is null. -/
def getNative : Native σ where
  signature :=
    { Signature.named "$get" ["$getvar"] with args := some ⟨true, [{ name := "name" }]⟩ }
  audited := false
  behave call := .inspect fun s => .succeed ((s.keyword? (call.text 0)).getD .null)

/-- Whether the value of a condition is true. -/
def isTrue : Json → Bool
  | .bool b => b
  | v => v.display == "true"

/-- The native `$if[condition;then;else]` resolves the condition and then only the
branch it chooses; a branch that is not written is null. -/
def ifNative : Native σ where
  signature :=
    { Signature.named "$if" [] with
      args := some ⟨true, [
        { name := "condition", condition := true },
        { name := "then", required := false },
        { name := "else", required := false }]⟩
      eager := false }
  audited := false
  behave call :=
    .needField 0 fun condition =>
      let branch := if isTrue condition then 1 else 2
      if call.fieldCount ≤ branch then .succeed .null
      else .needField branch fun value => .succeed value

/-- The native `$return[value]` ends the pass with a value. -/
def returnNative : Native σ where
  signature :=
    { Signature.named "$return" [] with
      args := some ⟨false, [{ name := "value", required := false }]⟩ }
  audited := false
  behave call := .done (.giveBack (call.arg 0))

/-- The native `$stop` ends the pass without a value. -/
def stopNative : Native σ where
  signature := Signature.named "$stop" []
  audited := false
  behave _ := .done .stop

/-- Every built-in native. -/
def all : List (Native σ) := [letNative, getNative, ifNative, returnNative, stopNative]

end TagTemplate.Builtin
