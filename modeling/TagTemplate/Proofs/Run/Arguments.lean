import TagTemplate.Proofs.Run.GoesOn

/-! What an eager invocation does.

The arguments of an eager native are resolved one by one, and each of them invocation by
invocation. But for the values that are made of it this is the same as to execute all nested
invocations in source order up to the first that interrupts: `Run.outline_resolveAll`. From
there an execution ends with the interruption, or fails for lack of an argument, or calls the
native: `Invocation.execute_of_interrupted` and `Invocation.execute_of_resolved`. So a control
signal or a fault was raised by the native or is that of a nested invocation:
`Invocation.raised_of_execute`. -/
namespace TagTemplate

namespace Run
variable {σ α β : Type}

/-! ### Actions without their values -/

/-- What an action does and how it is interrupted, whatever value it has. -/
def outline (x : Run σ (Except Interruption α)) : Run σ (Except Interruption Unit) := do
  return (← x).map fun _ => ()

/-- An action, and behind it another one unless it is interrupted. -/
def onward (x y : Run σ (Except Interruption Unit)) : Run σ (Except Interruption Unit) := do
  match ← x with
  | .error e => pure (.error e)
  | .ok () => y

theorem outline_apply (x : Run σ (Except Interruption α)) (c : Clocked (Context σ)) :
    outline x c = ((x c).1.map (·.map fun _ => ()), (x c).2) := Timed.bind_pure_apply _ _ _

theorem onward_assoc (x y z : Run σ (Except Interruption Unit)) :
    onward (onward x y) z = onward x (onward y z) := by
  rw [onward, onward, onward, bind_assoc]
  congr 1
  funext result
  cases result <;> rfl

section
variable {x : Run σ (Except Interruption α)}
  {f : Except Interruption α → Run σ (Except Interruption β)}
  (hf : ∀ e, f (.error e) = pure (.error e))
include hf

/-- The outline of two actions is that of one and then of the other. -/
theorem outline_bind {y : Run σ (Except Interruption Unit)}
    (hy : ∀ a, outline (f (.ok a)) = y) : outline (x >>= f) = onward (outline x) y := by
  rw [onward, outline, outline, bind_assoc, bind_assoc]
  congr 1
  funext result
  cases result with
  | error e =>
    rw [hf]
    rfl
  | ok a => exact hy a

/-- To change the value of an action changes nothing else. -/
theorem outline_bind_pure {g : α → β} (hg : ∀ a, f (.ok a) = pure (.ok (g a))) :
    outline (x >>= f) = outline x := by
  rw [outline, outline, bind_assoc]
  congr 1
  funext result
  cases result with
  | error e =>
    rw [hf]
    rfl
  | ok a =>
    rw [hg]
    rfl

end

section
variable {x : Run σ (Except Interruption α)} {y : Run σ (Except Interruption β)}
  (hxy : outline x = outline y) {c d : Clocked (Context σ)}
include hxy

/-- Actions with one outline are abandoned alike. -/
theorem eq_none_of_outline (h : y c = (none, d)) : x c = (none, d) := by
  have hx := outline_apply x c
  rw [hxy, outline_apply, h] at hx
  obtain ⟨hfirst, hsecond⟩ := Prod.mk.inj hx
  rcases hc : x c with ⟨_ | a, d'⟩ <;> rw [hc] at hfirst hsecond <;> cases hfirst
  cases hsecond
  rfl

/-- Actions with one outline are interrupted alike. -/
theorem eq_error_of_outline {e : Interruption} (h : y c = (some (.error e), d)) :
    x c = (some (.error e), d) := by
  have hx := outline_apply x c
  rw [hxy, outline_apply, h] at hx
  obtain ⟨hfirst, hsecond⟩ := Prod.mk.inj hx
  rcases hc : x c with ⟨_ | e' | a, d'⟩ <;> rw [hc] at hfirst hsecond <;> cases hfirst
  cases hsecond
  rfl

/-- Actions with one outline have values alike. -/
theorem eq_ok_of_outline {b : β} (h : y c = (some (.ok b), d)) :
    ∃ a, x c = (some (.ok a), d) := by
  have hx := outline_apply x c
  rw [hxy, outline_apply, h] at hx
  obtain ⟨hfirst, hsecond⟩ := Prod.mk.inj hx
  rcases hc : x c with ⟨_ | e' | a, d'⟩ <;> rw [hc] at hfirst hsecond <;> cases hfirst
  cases hsecond
  exact ⟨a, rfl⟩

end

/-! ### Arguments -/

open Invocation

/-- What an invocation contributes, as an action. -/
def contributed (i : Invocation σ) : Run σ (Except Interruption Json) := do
  let result ← i.execute
  return contribution i.heading result

theorem outline_contributions_cons (i : Invocation σ) (is : List (Invocation σ)) :
    outline (contributions (i :: is)) =
      onward (outline (contributed i)) (outline (contributions is)) := by
  funext c
  rcases h : i.execute c with ⟨_ | result, d⟩
  · have hnone : outline (contributed i) c = (none, d) := Timed.bind_none (Timed.bind_none h)
    rw [contributions, outline, Timed.bind_none (Timed.bind_none h), onward,
      Timed.bind_none hnone]
  · have hsome : outline (contributed i) c =
        (some ((contribution i.heading result).map fun _ => ()), d) :=
      Timed.bind_some (Timed.bind_some h)
    rw [contributions, outline_apply, Timed.bind_some h, ← outline_apply, onward,
      Timed.bind_some hsome]
    cases contribution i.heading result with
    | error e => rfl
    | ok v =>
      refine congrFun (g := outline (contributions is)) ?_ d
      apply outline_bind_pure
      · exact fun _ => rfl
      · exact fun _ => rfl

/-- Invocations contribute one after another. -/
theorem outline_contributions_append (is js : List (Invocation σ)) :
    outline (contributions (is ++ js)) =
      onward (outline (contributions is)) (outline (contributions js)) := by
  induction is with
  | nil => rfl
  | cons i is ih =>
    rw [List.cons_append, outline_contributions_cons, outline_contributions_cons, onward_assoc, ih]

theorem outline_resolveText (text : FieldText (Invocation σ)) :
    outline (resolveText text) = outline (contributions text.invocations) := by
  match text with
  | ⟨_, invocations, template⟩ =>
    rw [resolveText]
    exact outline_bind_pure (fun _ => rfl) fun _ => rfl

theorem outline_resolveField (field : Field (Invocation σ)) :
    outline (resolveField field) = outline (contributions field.invocations) := by
  match field with
  | .plain text =>
    rw [resolveField, Field.invocations, ← outline_resolveText text]
    exact outline_bind_pure (fun _ => rfl) fun _ => rfl
  | .condition op lhs none =>
    rw [resolveField, Field.invocations, ← outline_resolveText lhs]
    exact outline_bind_pure (fun _ => rfl) fun _ => rfl
  | .condition op lhs (some rhs) =>
    rw [resolveField, Field.invocations, outline_contributions_append, ← outline_resolveText lhs,
      ← outline_resolveText rhs]
    apply outline_bind
    · exact fun _ => rfl
    · exact fun _ => outline_bind_pure (fun _ => rfl) fun _ => rfl

/-- **To resolve arguments** is to execute the invocations in them, one after another. -/
theorem outline_resolveAll (fields : List (Field (Invocation σ))) :
    outline (resolveAll (resolvers fields)) =
      outline (contributions (fields.flatMap Field.invocations)) := by
  induction fields with
  | nil =>
    rw [resolvers]
    rfl
  | cons field fields ih =>
    rw [resolvers, List.flatMap_cons, outline_contributions_append, ← outline_resolveField field,
      ← ih]
    apply outline_bind
    · exact fun _ => rfl
    · exact fun _ => outline_bind_pure (fun _ => rfl) fun _ => rfl

end Run

/-! ### Modifiers -/

/-- A success stays one when the modifiers are applied. -/
theorem Heading.exists_modify_success (h : Heading) (v : Json) :
    ∃ w, h.modify (.success v) = .success w := by
  simp only [modify]
  split
  · exact ⟨_, rfl⟩
  · split <;> exact ⟨_, rfl⟩

/-- Modifiers change nothing but the values of successes. -/
theorem Heading.map_modify_eq (h : Heading) {result : Except String Outcome}
    (hsuccess : ∀ v, result.map h.modify ≠ .ok (.success v)) : result.map h.modify = result := by
  rcases result with fault | v | failure | v | _
  case ok.success =>
    obtain ⟨w, hw⟩ := h.exists_modify_success v
    exact absurd (congrArg Except.ok hw) (hsuccess w)
  all_goals rfl

/-! ### Executions -/

/-- A context in which an execution has begun. -/
def Clocked.enter {σ : Type} (h : Heading) (c : Clocked (Context σ)) : Clocked (Context σ) :=
  ⟨c.remaining, c.state.onSession (·.record (.entered h))⟩

/-- A context in which a native is called. -/
def Clocked.call {σ : Type} (call : Call) (audited : Bool) (c : Clocked (Context σ)) :
    Clocked (Context σ) :=
  ⟨c.remaining, c.state.onSession
    (·.record (.called call c.state.session.replay c.state.session.replays audited))⟩

namespace Invocation
variable {σ : Type}

theorem execute_eq (i : Invocation σ) :
    i.execute = finishing i.heading (perform i.heading i.native (resolvers (i.fields.getD []))) := by
  match i with
  | .mk _ _ none => rw [execute, fields, Option.getD_none, resolvers]; rfl
  | .mk _ _ (some _) => rw [execute]; rfl

theorem finishing_apply (heading : Heading) (x : Run σ (Except Interruption Outcome))
    (c : Clocked (Context σ)) :
    finishing heading x c =
      ((x c).1.map fun result => (Interruption.settle result).map heading.modify, (x c).2) :=
  Timed.bind_pure_apply _ _ _

theorem finishing_congr {heading : Heading} {x y : Run σ (Except Interruption Outcome)}
    {c d : Clocked (Context σ)} (h : x c = y d) :
    finishing heading x c = finishing heading y d := by
  rw [finishing_apply, finishing_apply, h]

/-- What interrupts the invocation around it becomes the outcome of that one. -/
theorem settle_of_contribution {heading outer : Heading} {result : Except String Outcome}
    {e : Interruption} (h : contribution heading result = .error e) :
    (Interruption.settle (.error e)).map outer.modify = result := by
  rcases result with fault | v | failure | v | _
  · cases h
    rfl
  · cases h
  · rw [contribution] at h
    split at h <;> cases h
    rfl
  · cases h
    rfl
  · cases h
    rfl

/-- **What interrupts is the outcome of one of the invocations.** -/
theorem exists_of_contributions_error {is : List (Invocation σ)} {e : Interruption}
    {c d : Clocked (Context σ)} (h : contributions is c = (some (.error e), d)) :
    ∃ j ∈ is, ∃ b result, j.execute b = (some result, d) ∧
      contribution j.heading result = .error e := by
  induction is generalizing c with
  | nil => cases h
  | cons i is ih =>
    rcases houtcome : i.execute c with ⟨_ | result, b⟩
    · rw [contributions, Timed.bind_none houtcome] at h
      cases h
    rw [contributions, Timed.bind_some houtcome] at h
    cases hvalue : contribution i.heading result with
    | error e' =>
      rw [hvalue] at h
      cases h
      exact ⟨i, List.mem_cons_self, c, result, houtcome, hvalue⟩
    | ok v =>
      rw [hvalue] at h
      rcases hrest : contributions is b with ⟨_ | e' | values, b'⟩
      · cases (Timed.bind_none hrest).symm.trans h
      · cases (Timed.bind_some hrest).symm.trans h
        obtain ⟨j, hj, hraised⟩ := ih hrest
        exact ⟨j, List.mem_cons_of_mem i hj, hraised⟩
      · cases (Timed.bind_some hrest).symm.trans h

theorem call_apply (heading : Heading) (native : Native σ) (fields : List (Resolver σ))
    (args : List Json) (c : Clocked (Context σ)) :
    call heading native fields args c =
      (native.behave ⟨heading, fields.length, args⟩).run fields
        (c.call ⟨heading, fields.length, args⟩ native.audited) := rfl

section
variable {heading : Heading} {native : Native σ} {schema : ArgumentSchema}
  (heager : native.signature.eager = true) (hargs : native.signature.args = some schema)
  {fields : List (Resolver σ)} {c d : Clocked (Context σ)}
include heager hargs

theorem perform_of_none (h : resolveAll fields (c.enter heading) = (none, d)) :
    perform heading native fields c = (none, d) := by
  rw [perform, heager, hargs]
  show (resolveAll fields >>= _) (c.enter heading) = (none, d)
  exact Timed.bind_none h

theorem perform_of_error {e : Interruption}
    (h : resolveAll fields (c.enter heading) = (some (.error e), d)) :
    perform heading native fields c = (some (.error e), d) := by
  rw [perform, heager, hargs]
  exact Timed.bind_some h

theorem perform_of_ok {values : List Json}
    (h : resolveAll fields (c.enter heading) = (some (.ok values), d)) :
    (∃ spec, perform heading native fields c = (some (.ok (heading.lacks spec)), d)) ∨
      perform heading native fields c = call heading native fields (schema.gather values) d := by
  rw [perform, heager, hargs]
  cases hmissing : schema.missing? (schema.gather values).length with
  | some spec =>
    refine .inl ⟨spec, (Timed.bind_some h).trans ?_⟩
    dsimp only
    rw [hmissing]
    rfl
  | none =>
    refine .inr ((Timed.bind_some h).trans ?_)
    dsimp only
    rw [hmissing]

end

theorem perform_of_args_eq_none {heading : Heading} {native : Native σ}
    (hargs : native.signature.args = none) (fields : List (Resolver σ))
    (c : Clocked (Context σ)) :
    perform heading native fields c = call heading native fields [] (c.enter heading) := by
  rw [perform, hargs]
  split
  · rename_i h
    cases h
  · rfl

/-- Whether the arguments of an invocation are resolved before its native is called, if
there are any. -/
structure Eager (i : Invocation σ) : Prop where
  eager : i.native.signature.eager = true
  args : i.native.signature.args = none → i.nested = []

section
variable {i : Invocation σ} (hi : i.Eager) {c d : Clocked (Context σ)}
include hi

/-- Where a nested invocation is abandoned, so is the execution. -/
theorem execute_of_abandoned (h : contributions i.nested (c.enter i.heading) = (none, d)) :
    i.execute c = (none, d) := by
  cases hargs : i.native.signature.args with
  | none =>
    rw [hi.args hargs, contributions] at h
    cases h
  | some schema =>
    have hresolve : resolveAll (resolvers (i.fields.getD [])) (c.enter i.heading) = (none, d) :=
      Run.eq_none_of_outline (Run.outline_resolveAll _) h
    rw [execute_eq, finishing_apply, perform_of_none hi.eager hargs hresolve]
    rfl

/-- **Where a nested invocation interrupts**, the execution ends with the interruption. -/
theorem execute_of_interrupted {e : Interruption}
    (h : contributions i.nested (c.enter i.heading) = (some (.error e), d)) :
    i.execute c = (some ((Interruption.settle (.error e)).map i.heading.modify), d) := by
  cases hargs : i.native.signature.args with
  | none =>
    rw [hi.args hargs, contributions] at h
    cases h
  | some schema =>
    have hresolve : resolveAll (resolvers (i.fields.getD [])) (c.enter i.heading) =
        (some (.error e), d) := Run.eq_error_of_outline (Run.outline_resolveAll _) h
    rw [execute_eq, finishing_apply, perform_of_error hi.eager hargs hresolve]
    rfl

/-- Where a nested invocation interrupts, its outcome is that of the execution. -/
theorem exists_nested_of_interrupted {e : Interruption}
    (h : contributions i.nested (c.enter i.heading) = (some (.error e), d)) :
    ∃ j ∈ i.nested, ∃ b result, j.execute b = (some result, d) ∧
      i.execute c = (some result, d) := by
  obtain ⟨j, hj, b, result, houtcome, hraised⟩ := exists_of_contributions_error h
  refine ⟨j, hj, b, result, houtcome, ?_⟩
  rw [execute_of_interrupted hi h, settle_of_contribution hraised]

/-- **Where no nested invocation interrupts**, the execution fails for lack of an argument, or
the native is called. -/
theorem execute_of_resolved {values : List Json}
    (h : contributions i.nested (c.enter i.heading) = (some (.ok values), d)) :
    (∃ failure, i.execute c = (some (.ok (.failure failure)), d)) ∨
    ∃ call fields, call.heading = i.heading ∧
      i.execute c = finishing i.heading ((i.native.behave call).run fields)
        (d.call call i.native.audited) := by
  have hcalled {args : List Json} (hperform :
      perform i.heading i.native (resolvers (i.fields.getD [])) c =
        call i.heading i.native (resolvers (i.fields.getD [])) args d) :
      ∃ call fields, call.heading = i.heading ∧
        i.execute c = finishing i.heading ((i.native.behave call).run fields)
          (d.call call i.native.audited) := by
    refine ⟨⟨i.heading, (resolvers (i.fields.getD [])).length, args⟩,
      resolvers (i.fields.getD []), rfl, ?_⟩
    rw [execute_eq, finishing_apply, finishing_apply, hperform, call_apply]
  cases hargs : i.native.signature.args with
  | none =>
    rw [hi.args hargs, contributions] at h
    cases h
    exact .inr (hcalled (perform_of_args_eq_none hargs _ c))
  | some schema =>
    obtain ⟨vs, hresolve⟩ := Run.eq_ok_of_outline (Run.outline_resolveAll (i.fields.getD [])) h
    rcases perform_of_ok hi.eager hargs hresolve with ⟨spec, hlacks⟩ | hperform
    · have hexecute : i.execute c =
          (some ((Interruption.settle (.ok (i.heading.lacks spec))).map i.heading.modify), d) := by
        rw [execute_eq, finishing_apply, hlacks]
        rfl
      exact .inl ⟨_, hexecute⟩
    · exact .inr (hcalled hperform)

/-- **A control signal or a fault is raised by the native of an invocation**, or it is the outcome
of one that is nested in it. -/
theorem raised_of_execute {result : Except String Outcome} (h : i.execute c = (some result, d))
    (hsuccess : ∀ v, result ≠ .ok (.success v)) (hfailure : ∀ f, result ≠ .ok (.failure f)) :
    (∃ j ∈ i.nested, ∃ b, j.execute b = (some result, d)) ∨
    ∃ call fields b raised, call.heading = i.heading ∧
      (i.native.behave call).run fields b = (some raised, d) ∧
        Interruption.settle raised = result := by
  rcases hresult : contributions i.nested (c.enter i.heading) with ⟨_ | e | values, b⟩
  · cases (execute_of_abandoned hi hresult).symm.trans h
  · obtain ⟨j, hj, b', result', houtcome, hexecute⟩ := exists_nested_of_interrupted hi hresult
    cases hexecute.symm.trans h
    exact .inl ⟨j, hj, b', houtcome⟩
  · rcases execute_of_resolved hi hresult with ⟨failure, hfails⟩ | ⟨call, fields, hheading, hcall⟩
    · cases hfails.symm.trans h
      exact absurd rfl (hfailure failure)
    · rw [hcall, finishing_apply] at h
      rcases hrun : (i.native.behave call).run fields (b.call call i.native.audited) with
        ⟨_ | raised, d'⟩ <;> rw [hrun] at h <;> cases h
      refine .inr ⟨call, fields, _, raised, hheading, hrun, ?_⟩
      exact (i.heading.map_modify_eq hsuccess).symm

end

end Invocation

end TagTemplate
