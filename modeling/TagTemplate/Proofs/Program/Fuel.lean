import TagTemplate.Proofs.Program.Parts

/-! Enough fuel.

The readers take fuel, and with two units for each token that is left there is always enough: what
they give is then the same for every amount (`readField_fuel` and those beside it), be it a result
or a problem. So each of them has a form without fuel, `invocationAt` down to `textAt`, and
equations for these say what is read token by token. -/
namespace TagTemplate.Program
variable {σ : Type} {v : Vocabulary σ} {depth : Nat}

mutual

theorem readInvocation_fuel {fuel : Nat} (fuel' : Nat) {c : Cursor}
    (h : 2 * c.tokens.length + 2 ≤ fuel) (h' : 2 * c.tokens.length + 2 ≤ fuel') (start : Nat) (tag : Tag) :
    readInvocation v depth fuel start tag c = readInvocation v depth fuel' start tag c := by
  match fuel, fuel' with
  | fuel + 1, fuel' + 1 =>
    simp only [readInvocation]
    split
    · rfl
    · rw [readArguments_fuel fuel' (by omega) (by omega)]

theorem readArguments_fuel {fuel : Nat} (fuel' : Nat) {c : Cursor}
    (h : 2 * c.tokens.length + 1 ≤ fuel) (h' : 2 * c.tokens.length + 1 ≤ fuel') (start : Nat) (name : String)
    (args : Option ArgumentSchema) :
    readArguments v depth fuel start name args c = readArguments v depth fuel' start name args c := by
  match fuel, fuel', args with
  | fuel + 1, fuel' + 1, none => simp only [readArguments]
  | fuel + 1, fuel' + 1, some schema =>
    obtain ⟨ts, n⟩ := c
    simp only [readArguments]
    split
    · rename_i ts
      simp only [List.length_cons] at h h'
      split
      · rfl
      · rfl
      · rfl
      · rw [readFields_fuel fuel' (by dsimp only; omega) (by dsimp only; omega)]
    · rfl

theorem readFields_fuel {fuel : Nat} (fuel' : Nat) {c : Cursor} (h : 2 * c.tokens.length + 2 ≤ fuel)
    (h' : 2 * c.tokens.length + 2 ≤ fuel') (start : Nat) (name : String) (max : Nat)
    (spec : FieldSpec) (specs : List FieldSpec) :
    readFields v depth fuel start name max spec specs c =
      readFields v depth fuel' start name max spec specs c := by
  match fuel, fuel' with
  | fuel + 1, fuel' + 1 =>
    simp only [readFields]
    rw [readField_fuel fuel' (by omega) (by omega)]
    cases hone : readField v depth fuel' start name spec.condition {} none c with
    | error p => rfl
    | ok one =>
      obtain ⟨field, closed, c'⟩ := one
      have hlt := (ReadsField.of_read hone).length_lt
      simp only [Except.ok_bind]
      split
      · rfl
      · split
        · rw [readFields_fuel fuel' (by omega) (by omega)]
        · split
          · rfl
          · rw [readFields_fuel fuel' (by omega) (by omega)]

theorem readField_fuel {fuel : Nat} (fuel' : Nat) {c : Cursor} (h : 2 * c.tokens.length + 1 ≤ fuel)
    (h' : 2 * c.tokens.length + 1 ≤ fuel') (start : Nat) (name : String) (condition : Bool)
    (draft : Draft σ) (before : Option (Operator × Draft σ)) :
    readField v depth fuel start name condition draft before c =
      readField v depth fuel' start name condition draft before c := by
  match fuel, fuel' with
  | fuel + 1, fuel' + 1 =>
    obtain ⟨ts, n⟩ := c
    simp only [readField]
    split
    · rfl
    · simp only [List.length_cons] at h h'
      exact readField_fuel fuel' (by dsimp only; omega) (by dsimp only; omega) ..
    · rename_i inner tag ts
      simp only [List.length_cons] at h h'
      rw [readInvocation_fuel fuel' (by dsimp only; omega) (by dsimp only; omega)]
      cases hone : readInvocation v depth fuel' inner tag ⟨ts, n⟩ with
      | error p => rfl
      | ok one =>
        obtain ⟨i, c'⟩ := one
        have hle := (ReadsInvocation.of_read hone).length_le
        dsimp only at hle
        exact readField_fuel fuel' (by dsimp only; omega) (by dsimp only; omega) ..
    · rename_i c ts
      simp only [List.length_cons] at h h'
      split
      · rfl
      · split
        · rename_i op found
          have hwidth := Token.width_pos_of_operator? found
          exact readField_fuel fuel' (by simp only [List.length_drop, List.length_cons]; omega)
            (by simp only [List.length_drop, List.length_cons]; omega) ..
        · exact readField_fuel fuel' (by dsimp only; omega) (by dsimp only; omega) ..

end

theorem readText_fuel {fuel : Nat} (fuel' : Nat) {c : Cursor} (h : 2 * c.tokens.length + 2 ≤ fuel)
    (h' : 2 * c.tokens.length + 2 ≤ fuel') (draft : Draft σ) :
    readText v depth fuel draft c = readText v depth fuel' draft c := by
  induction fuel generalizing fuel' draft c with
  | zero => omega
  | succ fuel ih =>
    obtain ⟨fuel', rfl⟩ := Nat.exists_eq_succ_of_ne_zero (Nat.ne_of_gt (Nat.lt_of_lt_of_le
      (Nat.succ_pos _) h'))
    obtain ⟨ts, n⟩ := c
    simp only [readText]
    split
    · rfl
    · rename_i start tag ts
      simp only [List.length_cons] at h h'
      rw [readInvocation_fuel fuel' (by dsimp only; omega) (by dsimp only; omega)]
      cases hone : readInvocation v depth fuel' start tag ⟨ts, n⟩ with
      | error p => rfl
      | ok one =>
        obtain ⟨i, c'⟩ := one
        have hle := (ReadsInvocation.of_read hone).length_le
        dsimp only at hle
        exact ih fuel' (by dsimp only; omega) (by dsimp only; omega) _
    · simp only [List.length_cons] at h h'
      exact ih fuel' (by dsimp only; omega) (by dsimp only; omega) _
    · simp only [List.length_cons] at h h'
      exact ih fuel' (by dsimp only; omega) (by dsimp only; omega) _

/-! ### Readers without fuel -/

section
variable (v : Vocabulary σ) (depth : Nat)

/-- Reads the invocation of a tag. -/
def invocationAt (start : Nat) (tag : Tag) (c : Cursor) : Except Problem (Invocation σ × Cursor) :=
  readInvocation v depth (2 * c.tokens.length + 2) start tag c

/-- Reads one argument. -/
def fieldAt (start : Nat) (name : String) (condition : Bool) (draft : Draft σ)
    (before : Option (Operator × Draft σ)) (c : Cursor) :
    Except Problem (Field (Invocation σ) × Bool × Cursor) :=
  readField v depth (2 * c.tokens.length + 1) start name condition draft before c

/-- Reads arguments from one spec on. -/
def fieldsAt (start : Nat) (name : String) (max : Nat) (spec : FieldSpec) (specs : List FieldSpec)
    (c : Cursor) : Except Problem (List (Field (Invocation σ)) × Cursor) :=
  readFields v depth (2 * c.tokens.length + 2) start name max spec specs c

/-- Reads text at top level. -/
def textAt (draft : Draft σ) (c : Cursor) : Except Problem (Draft σ) :=
  readText v depth (2 * c.tokens.length + 2) draft c

/-- Reads the arguments behind one that was ended, by the closing bracket or by a separator. -/
def fieldsAfter (start : Nat) (name : String) (max : Nat) (spec : FieldSpec)
    (specs : List FieldSpec) (closed : Bool) (c : Cursor) :
    Except Problem (List (Field (Invocation σ)) × Cursor) :=
  if closed then .ok ([], c)
  else if spec.rest then fieldsAt v depth start name max spec specs c
  else
    match specs with
    | [] => .error ⟨.tooManyArguments max, name, start⟩
    | spec :: specs => fieldsAt v depth start name max spec specs c

/-- Reads arguments from one spec on, where the first of them is begun already. -/
def fieldsFrom (start : Nat) (name : String) (max : Nat) (spec : FieldSpec)
    (specs : List FieldSpec) (draft : Draft σ) (before : Option (Operator × Draft σ)) (c : Cursor) :
    Except Problem (List (Field (Invocation σ)) × Cursor) :=
  fieldAt v depth start name spec.condition draft before c >>= fun (field, closed, c) =>
    fieldsAfter v depth start name max spec specs closed c >>= fun (fields, c) =>
      .ok (field :: fields, c)

end

section
variable {start : Nat} {name : String} {condition : Bool} {draft : Draft σ}
  {before : Option (Operator × Draft σ)} {c : Char} {ts : List Token} {n : Nat}

theorem fieldAt_of_fuel {fuel : Nat} {c : Cursor} (h : 2 * c.tokens.length + 1 ≤ fuel) :
    readField v depth fuel start name condition draft before c =
      fieldAt v depth start name condition draft before c :=
  readField_fuel _ h (Nat.le_refl _) ..

theorem invocationAt_of_fuel {fuel : Nat} {tag : Tag} {c : Cursor}
    (h : 2 * c.tokens.length + 2 ≤ fuel) :
    readInvocation v depth fuel start tag c = invocationAt v depth start tag c :=
  readInvocation_fuel _ h (Nat.le_refl _) ..

theorem length_le_of_invocationAt {tag : Tag} {c c' : Cursor} {i : Invocation σ}
    (h : invocationAt v depth start tag c = .ok (i, c')) : c'.tokens.length ≤ c.tokens.length :=
  (ReadsInvocation.of_read h).length_le

theorem invocationAt_unknown {tag : Tag} {c : Cursor} (unknown : v.resolve tag.name = none) :
    invocationAt v depth start tag c = .error ⟨.unregistered, normalise tag.name, start⟩ := by
  rw [invocationAt, readInvocation, unknown]

/-- Where no argument list follows, and none is asked for, an invocation is its tag alone. -/
theorem invocationAt_bare {tag : Tag} {c : Cursor} {native : Native σ}
    (resolved : v.resolve tag.name = some native)
    (bare : ReadsArguments v depth native.signature.args c none c) :
    invocationAt v depth start tag c =
      .ok (.mk (tag.heading native c.next depth) native none, { c with next := c.next + 1 }) :=
  (ReadsInvocation.mk resolved bare).read _ (Nat.le_refl _) start

theorem invocationAt_missing {tag : Tag} {c : Cursor} {native : Native σ} {schema : ArgumentSchema}
    (resolved : v.resolve tag.name = some native) (declared : native.signature.args = some schema)
    (brackets : schema.brackets = true) (unlisted : ¬ c.opensList) :
    invocationAt v depth start tag c =
      .error ⟨.missingBrackets, native.signature.name, start⟩ := by
  rw [invocationAt, readInvocation]
  simp only [resolved, declared, readArguments]
  split
  · rename_i ts hopen
    exact absurd (by rw [Cursor.opensList, hopen]; rfl) unlisted
  · rw [if_pos brackets]
    rfl

theorem fieldAt_nil : fieldAt v depth start name condition draft before ⟨[], n⟩ =
    .error ⟨.unclosed, name, start⟩ := by
  rw [fieldAt]
  simp only [readField]

theorem fieldAt_escape {hidden : Bool} :
    fieldAt v depth start name condition draft before ⟨.escape hidden c :: ts, n⟩ =
      fieldAt v depth start name condition (draft.char c) before ⟨ts, n⟩ := by
  rw [fieldAt]
  simp only [readField]
  exact fieldAt_of_fuel (by dsimp only [List.length_cons]; omega)

theorem fieldAt_tag {inner : Nat} {tag : Tag} :
    fieldAt v depth start name condition draft before ⟨.tag inner tag :: ts, n⟩ =
      invocationAt v depth inner tag ⟨ts, n⟩ >>= fun (i, c) =>
        fieldAt v depth start name condition (draft.invoke i) before c := by
  rw [fieldAt]
  simp only [readField]
  rw [invocationAt_of_fuel (by dsimp only [List.length_cons]; omega)]
  cases hone : invocationAt v depth inner tag ⟨ts, n⟩ with
  | error p => rfl
  | ok one =>
    have hle := length_le_of_invocationAt hone
    exact fieldAt_of_fuel (by dsimp only [List.length_cons] at hle ⊢; omega)

theorem fieldAt_close (h : c = ';' ∨ c = ']') :
    fieldAt v depth start name condition draft before ⟨.char c :: ts, n⟩ =
      .ok (draft.field condition before, c == ']', ⟨ts, n⟩) := by
  rw [fieldAt]
  simp [readField, h]

theorem fieldAt_operator {op : Operator} (goesOn : c ≠ ';' ∧ c ≠ ']')
    (found : Token.operator? condition before (.char c :: ts) = some op) :
    fieldAt v depth start name condition draft before ⟨.char c :: ts, n⟩ =
      fieldAt v depth start name condition {} (some (op, draft))
        ⟨(Token.char c :: ts).drop op.width, n⟩ := by
  have hwidth := Token.width_pos_of_operator? found
  rw [Token.operator?] at found
  rw [fieldAt]
  simp only [readField, found]
  rw [if_neg (by simpa using goesOn)]
  exact fieldAt_of_fuel (by simp only [List.length_drop, List.length_cons]; omega)

theorem fieldAt_char (goesOn : c ≠ ';' ∧ c ≠ ']')
    (found : Token.operator? condition before (.char c :: ts) = none) :
    fieldAt v depth start name condition draft before ⟨.char c :: ts, n⟩ =
      fieldAt v depth start name condition (draft.char c) before ⟨ts, n⟩ := by
  rw [Token.operator?] at found
  rw [fieldAt]
  simp only [readField, found]
  rw [if_neg (by simpa using goesOn)]
  exact fieldAt_of_fuel (by dsimp only [List.length_cons]; omega)

theorem fieldsAt_of_fuel {fuel max : Nat} {spec : FieldSpec} {specs : List FieldSpec} {c : Cursor}
    (h : 2 * c.tokens.length + 2 ≤ fuel) :
    readFields v depth fuel start name max spec specs c =
      fieldsAt v depth start name max spec specs c :=
  readFields_fuel _ h (Nat.le_refl _) ..

/-- Arguments are read one after the other. -/
theorem fieldsAt_eq {max : Nat} {spec : FieldSpec} {specs : List FieldSpec} {c : Cursor} :
    fieldsAt v depth start name max spec specs c =
      fieldsFrom v depth start name max spec specs {} none c := by
  rw [fieldsAt, readFields, fieldsFrom, fieldAt_of_fuel (by omega)]
  cases hone : fieldAt v depth start name spec.condition {} none c with
  | error p => rfl
  | ok one =>
    obtain ⟨field, closed, c'⟩ := one
    have hlt := (ReadsField.of_read hone).length_lt
    simp only [Except.ok_bind, fieldsAfter]
    split
    · rfl
    · split
      · rw [fieldsAt_of_fuel (by omega)]
        rfl
      · cases specs with
        | nil => rfl
        | cons spec specs =>
          dsimp only
          rw [fieldsAt_of_fuel (by omega)]
          rfl

/-! ### Top level -/

theorem textAt_of_fuel {fuel : Nat} {c : Cursor} (h : 2 * c.tokens.length + 2 ≤ fuel) :
    readText v depth fuel draft c = textAt v depth draft c :=
  readText_fuel _ h (Nat.le_refl _) _

theorem textAt_tag {tag : Tag} :
    textAt v depth draft ⟨.tag start tag :: ts, n⟩ =
      invocationAt v depth start tag ⟨ts, n⟩ >>= fun (i, c) =>
        textAt v depth (draft.invoke i) c := by
  rw [textAt, readText]
  dsimp only
  rw [invocationAt_of_fuel (by dsimp only [List.length_cons]; omega)]
  cases hone : invocationAt v depth start tag ⟨ts, n⟩ with
  | error p => rfl
  | ok one =>
    have hle := length_le_of_invocationAt hone
    exact textAt_of_fuel (by dsimp only [List.length_cons] at hle ⊢; omega)

theorem textAt_char : textAt v depth draft ⟨.char c :: ts, n⟩ =
    textAt v depth (draft.char c) ⟨ts, n⟩ := by
  rw [textAt, readText]
  exact textAt_of_fuel (by dsimp only [List.length_cons]; omega)

/-- As long as a tag is to come, escapes are undone. -/
theorem textAt_escape {hidden : Bool}
    (ahead : (Token.escape hidden c :: ts).any Token.marksTag = true) :
    textAt v depth draft ⟨.escape hidden c :: ts, n⟩ = textAt v depth (draft.char c) ⟨ts, n⟩ := by
  rw [textAt, readText]
  dsimp only
  rw [if_pos (show (hidden || ts.any Token.marksTag) = true from ahead)]
  exact textAt_of_fuel (by dsimp only [List.length_cons]; omega)

/-- Behind the last tag the text is taken as it is. -/
theorem textAt_rest (last : ts.any Token.marksTag = false) :
    textAt v depth draft ⟨ts, n⟩ =
      .ok (draft.extend ((ts.flatMap Token.spelling).map .char)) :=
  (ReadsText.of_any_eq_false last).readText _ (Nat.le_refl _)

/-- What a template compiles to, given what was read of it. -/
def compiled (source : String) (path : Option String) (depth : Nat) :
    Except Problem (Draft σ) → Except CompileError (Program σ)
  | .ok draft => .ok (ofDraft source path depth draft)
  | .error p =>
    .error ⟨p.fault, p.function, Text.locate source.toList p.start, path.getD defaultPath⟩

/-- Compiling is reading at top level. -/
theorem compileAt_eq (source : String) (path : Option String) :
    compileAt v source path depth =
      compiled source path depth (textAt v depth {} ⟨Token.scan v.words source.toList, 0⟩) := by
  rw [compileAt, textAt]
  split
  · rename_i hread
    rw [hread]
    rfl
  · rename_i hread
    rw [hread]
    rfl

end

end TagTemplate.Program
