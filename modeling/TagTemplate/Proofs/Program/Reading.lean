import TagTemplate.Program.Compile

/-! Reading without fuel.

The reader of a template counts fuel down with its nested calls. The relations here
say what it reads, rule by rule and without the count: `ReadsInvocation`,
`ReadsArguments`, `ReadsFields` and `ReadsField` for what nests, and `ReadsText` for
the top level.

Reading is sound and complete for them: a result of the reader is derivable, and what
is derivable is read with two units of fuel for each token that is left.
`compileAt_eq_ok_iff` puts both together: a template compiles to a program exactly when
its tokens read as the text of that program. Facts about compiled programs are then
proved by induction on a derivation, and no later proof opens the reader. -/
namespace TagTemplate

/-- What is known of the invocation of a tag, given its number and its depth. -/
def Tag.heading {σ : Type} (t : Tag) (native : Native σ) (index depth : Nat) : Heading :=
  ⟨index, native.signature.name, t.negated, t.silent, t.count, depth⟩

/-- Whether an argument list follows. -/
def Cursor.opensList (c : Cursor) : Prop := c.tokens.head? = some (.char '[')

/-- The operator that an argument goes on with, if it may still be split. -/
def Token.operator? {α : Type} (condition : Bool) (before : Option α) (tokens : List Token) :
    Option Operator :=
  if condition && before.isNone then Operator.scan ((tokens.take 2).map Token.lead) else none

theorem Operator.width_pos_of_scan {cs : List Char} {op : Operator} (h : scan cs = some op) :
    0 < op.width := by
  unfold scan at h
  split at h <;> cases h <;> decide

theorem Operator.width_le_of_scan {cs : List Char} {op : Operator} (h : scan cs = some op) :
    op.width ≤ cs.length := by
  unfold scan at h
  split at h <;> cases h <;> simp [width, token]

theorem Token.width_pos_of_operator? {α : Type} {condition : Bool} {before : Option α}
    {tokens : List Token} {op : Operator} (h : operator? condition before tokens = some op) :
    0 < op.width := by
  unfold operator? at h
  split at h
  · exact Operator.width_pos_of_scan h
  · cases h

/-- A sequence of steps whose first step succeeds is the rest of it. -/
theorem Except.ok_bind {ε α β : Type} (a : α) (f : α → Except ε β) :
    ((.ok a : Except ε α) >>= f) = f a := rfl

/-- A sequence of steps succeeds only if its first step does. -/
theorem Except.bind_eq_ok {ε α β : Type} {x : Except ε α} {f : α → Except ε β} {b : β}
    (h : x >>= f = .ok b) : ∃ a, x = .ok a ∧ f a = .ok b := by
  cases x with
  | error e => cases h
  | ok a => exact ⟨a, rfl, h⟩

namespace Program
variable {σ : Type}

section Rules
variable (v : Vocabulary σ) (depth : Nat)

mutual

/-- The invocation of a tag is read from a cursor up to another. -/
inductive ReadsInvocation : Tag → Cursor → Invocation σ → Cursor → Prop
  | mk {tag native fields c c'} (resolved : v.resolve tag.name = some native)
      (arguments : ReadsArguments native.signature.args c fields c') :
      ReadsInvocation tag c (.mk (tag.heading native c'.next depth) native fields)
        { c' with next := c'.next + 1 }

/-- The argument list under a schema is read, or left out. -/
inductive ReadsArguments :
    Option ArgumentSchema → Cursor → Option (List (Field (Invocation σ))) → Cursor → Prop
  | noSchema {c} : ReadsArguments none c none c
  | omitted {schema c} (optional : schema.brackets = false) (closed : ¬ c.opensList) :
      ReadsArguments (some schema) c none c
  | empty {schema ts n} (fieldless : schema.fields = []) :
      ReadsArguments (some schema) ⟨.char '[' :: .char ']' :: ts, n⟩ (some []) ⟨ts, n⟩
  | listed {schema spec specs ts n fields c'} (declared : schema.fields = spec :: specs)
      (list : ReadsFields spec specs ⟨ts, n⟩ fields c') :
      ReadsArguments (some schema) ⟨.char '[' :: ts, n⟩ (some fields) c'

/-- Arguments from one spec on are read, with the closing bracket. -/
inductive ReadsFields :
    FieldSpec → List FieldSpec → Cursor → List (Field (Invocation σ)) → Cursor → Prop
  | last {spec specs c field c'} (one : ReadsField spec.condition {} none c field true c') :
      ReadsFields spec specs c [field] c'
  | again {spec specs c field c' fields c''} (rest : spec.rest = true)
      (one : ReadsField spec.condition {} none c field false c')
      (more : ReadsFields spec specs c' fields c'') : ReadsFields spec specs c (field :: fields) c''
  | next {spec spec' specs c field c' fields c''} (single : spec.rest = false)
      (one : ReadsField spec.condition {} none c field false c')
      (more : ReadsFields spec' specs c' fields c'') :
      ReadsFields spec (spec' :: specs) c (field :: fields) c''

/-- An argument is read, of which a draft and what stands before an operator are read
already; the truth value says whether the closing bracket ended it. -/
inductive ReadsField : Bool → Draft σ → Option (Operator × Draft σ) → Cursor →
    Field (Invocation σ) → Bool → Cursor → Prop
  | close {condition draft before c ts n} (ends : c = ';' ∨ c = ']') :
      ReadsField condition draft before ⟨.char c :: ts, n⟩ (draft.field condition before)
        (c == ']') ⟨ts, n⟩
  | escape {condition draft before hidden c ts n field closed c'}
      (more : ReadsField condition (draft.char c) before ⟨ts, n⟩ field closed c') :
      ReadsField condition draft before ⟨.escape hidden c :: ts, n⟩ field closed c'
  | tag {condition draft before start tag ts n i c' field closed c''}
      (one : ReadsInvocation tag ⟨ts, n⟩ i c')
      (more : ReadsField condition (draft.invoke i) before c' field closed c'') :
      ReadsField condition draft before ⟨.tag start tag :: ts, n⟩ field closed c''
  | operator {condition draft before c ts n op field closed c'} (goesOn : c ≠ ';' ∧ c ≠ ']')
      (found : Token.operator? condition before (.char c :: ts) = some op)
      (more : ReadsField condition {} (some (op, draft)) ⟨(Token.char c :: ts).drop op.width, n⟩
        field closed c') :
      ReadsField condition draft before ⟨.char c :: ts, n⟩ field closed c'
  | char {condition draft before c ts n field closed c'} (goesOn : c ≠ ';' ∧ c ≠ ']')
      (found : Token.operator? condition before (.char c :: ts) = none)
      (more : ReadsField condition (draft.char c) before ⟨ts, n⟩ field closed c') :
      ReadsField condition draft before ⟨.char c :: ts, n⟩ field closed c'

end

/-- Text at top level is read to its end. -/
inductive ReadsText : Draft σ → Cursor → Draft σ → Prop
  | done {draft n} : ReadsText draft ⟨[], n⟩ draft
  | tag {draft start tag ts n i c' result} (one : ReadsInvocation v depth tag ⟨ts, n⟩ i c')
      (more : ReadsText (draft.invoke i) c' result) :
      ReadsText draft ⟨.tag start tag :: ts, n⟩ result
  | undone {draft hidden c ts n result} (before : (hidden || ts.any Token.marksTag) = true)
      (more : ReadsText (draft.char c) ⟨ts, n⟩ result) :
      ReadsText draft ⟨.escape hidden c :: ts, n⟩ result
  | kept {draft hidden c ts n result} (after : (hidden || ts.any Token.marksTag) = false)
      (more : ReadsText ((draft.char '\\').char c) ⟨ts, n⟩ result) :
      ReadsText draft ⟨.escape hidden c :: ts, n⟩ result
  | char {draft c ts n result} (more : ReadsText (draft.char c) ⟨ts, n⟩ result) :
      ReadsText draft ⟨.char c :: ts, n⟩ result

end Rules

variable {v : Vocabulary σ} {depth : Nat}

/-! ### Soundness -/

mutual

theorem ReadsInvocation.of_read {fuel start : Nat} {tag : Tag} {c c' : Cursor} {i : Invocation σ}
    (h : readInvocation v depth fuel start tag c = .ok (i, c')) :
    ReadsInvocation v depth tag c i c' := by
  match fuel with
  | 0 => simp [readInvocation] at h
  | fuel + 1 =>
    simp only [readInvocation] at h
    split at h
    · cases h
    · rename_i native hn
      obtain ⟨⟨fields, c₁⟩, ha, h⟩ := Except.bind_eq_ok h
      cases h
      exact .mk hn (.of_read ha)

theorem ReadsArguments.of_read {fuel start : Nat} {name : String} {args : Option ArgumentSchema}
    {c c' : Cursor} {fields : Option (List (Field (Invocation σ)))}
    (h : readArguments v depth fuel start name args c = .ok (fields, c')) :
    ReadsArguments v depth args c fields c' := by
  match fuel, args with
  | 0, _ => simp [readArguments] at h
  | fuel + 1, none =>
    simp only [readArguments, Except.ok.injEq, Prod.mk.injEq] at h
    obtain ⟨rfl, rfl⟩ := h
    exact .noSchema
  | fuel + 1, some schema =>
    obtain ⟨ts, n⟩ := c
    simp only [readArguments] at h
    split at h
    · rename_i ts
      split at h
      · cases h
      · rename_i hs
        cases h
        exact .empty hs
      · cases h
      · rename_i spec specs hs
        obtain ⟨⟨fields, c₁⟩, hf, h⟩ := Except.bind_eq_ok h
        cases h
        exact .listed hs (.of_read hf)
    · rename_i hopen
      split at h
      · cases h
      · rename_i hb
        cases h
        refine .omitted (by simpa using hb) fun hl => ?_
        obtain ⟨ts, rfl⟩ := List.head?_eq_some_iff.1 hl
        exact hopen ts rfl

theorem ReadsFields.of_read {fuel start : Nat} {name : String} {max : Nat} {spec : FieldSpec}
    {specs : List FieldSpec} {c c' : Cursor} {fields : List (Field (Invocation σ))}
    (h : readFields v depth fuel start name max spec specs c = .ok (fields, c')) :
    ReadsFields v depth spec specs c fields c' := by
  match fuel with
  | 0 => simp [readFields] at h
  | fuel + 1 =>
    simp only [readFields] at h
    obtain ⟨⟨field, closed, c₁⟩, hf, h⟩ := Except.bind_eq_ok h
    have hone := ReadsField.of_read hf
    dsimp only at h
    split at h
    · rename_i hc
      cases h
      exact .last (hc ▸ hone)
    · rename_i hc
      rw [Bool.not_eq_true] at hc
      subst hc
      split at h
      · rename_i hr
        obtain ⟨⟨fields, c₂⟩, hfs, h⟩ := Except.bind_eq_ok h
        cases h
        exact .again hr hone (.of_read hfs)
      · rename_i hr
        split at h
        · cases h
        · obtain ⟨⟨fields, c₂⟩, hfs, h⟩ := Except.bind_eq_ok h
          cases h
          exact .next (by simpa using hr) hone (.of_read hfs)

theorem ReadsField.of_read {fuel start : Nat} {name : String} {condition : Bool} {draft : Draft σ}
    {before : Option (Operator × Draft σ)} {c c' : Cursor} {field : Field (Invocation σ)}
    {closed : Bool}
    (h : readField v depth fuel start name condition draft before c = .ok (field, closed, c')) :
    ReadsField v depth condition draft before c field closed c' := by
  match fuel with
  | 0 => simp [readField] at h
  | fuel + 1 =>
    obtain ⟨ts, n⟩ := c
    simp only [readField] at h
    split at h
    · cases h
    · exact .escape (.of_read h)
    · obtain ⟨⟨i, c₁⟩, hi, h⟩ := Except.bind_eq_ok h
      exact .tag (.of_read hi) (.of_read h)
    · rename_i c ts
      split at h
      · rename_i hc
        cases h
        exact .close (by simpa using hc)
      · rename_i hc
        have hc : c ≠ ';' ∧ c ≠ ']' := by simpa using hc
        split at h
        · rename_i hop
          exact .operator hc hop (.of_read h)
        · rename_i hop
          exact .char hc hop (.of_read h)

end

/-! ### Reading uses tokens up

What is left behind a reading is a suffix of what was there, and a proper one once an
argument was read. -/

mutual

theorem ReadsInvocation.suffix {tag : Tag} {c c' : Cursor} {i : Invocation σ}
    (h : ReadsInvocation v depth tag c i c') : c'.tokens <:+ c.tokens := by
  match h with
  | .mk _ ha => exact ha.suffix

theorem ReadsArguments.suffix {args : Option ArgumentSchema} {c c' : Cursor}
    {fields : Option (List (Field (Invocation σ)))}
    (h : ReadsArguments v depth args c fields c') : c'.tokens <:+ c.tokens := by
  match h with
  | .noSchema => exact List.suffix_rfl
  | .omitted _ _ => exact List.suffix_rfl
  | .empty _ => exact ⟨[_, _], rfl⟩
  | .listed _ hf => exact (hf.suffix.trans (List.tail_suffix _)).trans (List.suffix_cons _ _)

theorem ReadsFields.suffix {spec : FieldSpec} {specs : List FieldSpec} {c c' : Cursor}
    {fields : List (Field (Invocation σ))}
    (h : ReadsFields v depth spec specs c fields c') : c'.tokens <:+ c.tokens.tail := by
  match h with
  | .last hf => exact hf.suffix
  | .again _ hf hfs => exact (hfs.suffix.trans (List.tail_suffix _)).trans hf.suffix
  | .next _ hf hfs => exact (hfs.suffix.trans (List.tail_suffix _)).trans hf.suffix

theorem ReadsField.suffix {condition : Bool} {draft : Draft σ}
    {before : Option (Operator × Draft σ)} {c c' : Cursor} {field : Field (Invocation σ)}
    {closed : Bool} (h : ReadsField v depth condition draft before c field closed c') :
    c'.tokens <:+ c.tokens.tail := by
  match h with
  | .close _ => exact List.suffix_rfl
  | .escape h => exact h.suffix.trans (List.tail_suffix _)
  | .tag hi h => exact (h.suffix.trans (List.tail_suffix _)).trans hi.suffix
  | .operator _ hop h =>
    have hpos := Token.width_pos_of_operator? hop
    obtain ⟨w, hw⟩ := Nat.exists_eq_succ_of_ne_zero (Nat.ne_of_gt hpos)
    have hs := h.suffix
    rw [hw, List.drop_succ_cons] at hs
    exact (hs.trans (List.tail_suffix _)).trans (List.drop_suffix _ _)
  | .char _ _ h => exact h.suffix.trans (List.tail_suffix _)

end

theorem ReadsInvocation.length_le {tag : Tag} {c c' : Cursor} {i : Invocation σ}
    (h : ReadsInvocation v depth tag c i c') : c'.tokens.length ≤ c.tokens.length :=
  h.suffix.length_le

theorem ReadsField.length_lt {condition : Bool} {draft : Draft σ}
    {before : Option (Operator × Draft σ)} {c c' : Cursor} {field : Field (Invocation σ)}
    {closed : Bool} (h : ReadsField v depth condition draft before c field closed c') :
    c'.tokens.length < c.tokens.length := by
  have hle := h.suffix.length_le
  have hne : c.tokens ≠ [] := by
    cases h <;> simp
  have hpos := List.length_pos_iff.2 hne
  rw [List.length_tail] at hle
  omega

/-! ### Completeness

The fuel that suffices is counted in tokens: reading a tag, a bracket or an argument
uses one token up for every two nested calls. -/

mutual

theorem ReadsInvocation.read {tag : Tag} {c c' : Cursor} {i : Invocation σ}
    (h : ReadsInvocation v depth tag c i c') (fuel : Nat)
    (hf : 2 * c.tokens.length + 2 ≤ fuel) (start : Nat) :
    readInvocation v depth fuel start tag c = .ok (i, c') := by
  match fuel, h with
  | fuel + 1, .mk hn ha =>
    have ha := ha.read fuel (by omega) start
    simp only [readInvocation, hn, ha]
    rfl

theorem ReadsArguments.read {args : Option ArgumentSchema} {c c' : Cursor}
    {fields : Option (List (Field (Invocation σ)))}
    (h : ReadsArguments v depth args c fields c') (fuel : Nat)
    (hf : 2 * c.tokens.length + 1 ≤ fuel) (start : Nat) (name : String) :
    readArguments v depth fuel start name args c = .ok (fields, c') := by
  match fuel, h with
  | fuel + 1, .noSchema => simp only [readArguments]
  | fuel + 1, .omitted hb hc =>
    simp only [readArguments, hb]
    split
    · rename_i ts hts
      exact absurd (by rw [Cursor.opensList, hts]; rfl) hc
    · rfl
  | fuel + 1, .empty hs => simp only [readArguments, hs]
  | fuel + 1, .listed hs hfs =>
    have hfs := hfs.read fuel (by simp at hf ⊢; omega) start name
    simp only [readArguments, hs, hfs]
    rfl

theorem ReadsFields.read {spec : FieldSpec} {specs : List FieldSpec} {c c' : Cursor}
    {fields : List (Field (Invocation σ))} (h : ReadsFields v depth spec specs c fields c')
    (fuel : Nat) (hf : 2 * c.tokens.length + 2 ≤ fuel) (start : Nat) (name : String) (max : Nat) :
    readFields v depth fuel start name max spec specs c = .ok (fields, c') := by
  match fuel, h with
  | fuel + 1, .last hone =>
    have hone := hone.read fuel (by omega) start name
    simp only [readFields, hone]
    rfl
  | fuel + 1, .again hr hone hmore =>
    have hlt := hone.length_lt
    have hone := hone.read fuel (by omega) start name
    have hmore := hmore.read fuel (by omega) start name max
    simp only [readFields, hone, Except.ok_bind, hr, hmore]
    rfl
  | fuel + 1, .next hr hone hmore =>
    have hlt := hone.length_lt
    have hone := hone.read fuel (by omega) start name
    have hmore := hmore.read fuel (by omega) start name max
    simp only [readFields, hone, Except.ok_bind, hr, hmore]
    rfl

theorem ReadsField.read {condition : Bool} {draft : Draft σ}
    {before : Option (Operator × Draft σ)} {c c' : Cursor} {field : Field (Invocation σ)}
    {closed : Bool} (h : ReadsField v depth condition draft before c field closed c')
    (fuel : Nat) (hf : 2 * c.tokens.length + 1 ≤ fuel) (start : Nat) (name : String) :
    readField v depth fuel start name condition draft before c = .ok (field, closed, c') := by
  match fuel, h with
  | fuel + 1, .close hc => simp [readField, hc]
  | fuel + 1, .escape h =>
    simp only [List.length_cons] at hf
    simp only [readField]
    exact h.read fuel (by dsimp only; omega) start name
  | fuel + 1, .tag hi h =>
    have hle := hi.length_le
    simp only [List.length_cons] at hf hle
    have hi := hi.read fuel (by dsimp only; omega)
    have h := h.read fuel (by omega) start name
    simp only [readField, hi]
    exact h
  | fuel + 1, .operator hc hop h =>
    have hw := Token.width_pos_of_operator? hop
    simp only [List.length_cons] at hf
    have h := h.read fuel (by simp; omega) start name
    simp only [Token.operator?] at hop
    simp only [readField, hop]
    simpa [hc] using h
  | fuel + 1, .char hc hop h =>
    simp only [List.length_cons] at hf
    have h := h.read fuel (by dsimp only; omega) start name
    simp only [Token.operator?] at hop
    simp only [readField, hop]
    simpa [hc] using h

end

/-! ### Top level -/

theorem ReadsText.of_readText {fuel : Nat} {draft result : Draft σ} {c : Cursor}
    (hf : 2 * c.tokens.length + 2 ≤ fuel) (h : readText v depth fuel draft c = .ok result) :
    ReadsText v depth draft c result := by
  induction fuel generalizing draft c with
  | zero => omega
  | succ fuel ih =>
    obtain ⟨ts, n⟩ := c
    simp only [readText] at h
    split at h
    · cases h
      exact .done
    · obtain ⟨⟨i, c₁⟩, hi, h⟩ := Except.bind_eq_ok h
      have hi := ReadsInvocation.of_read hi
      have hle := hi.length_le
      simp only [List.length_cons] at hf hle
      exact .tag hi (ih (by omega) h)
    · simp only [List.length_cons] at hf
      have h := ih (by dsimp only; omega) h
      split at h
      · rename_i hb
        exact .undone hb h
      · rename_i hb
        exact .kept (by simpa using hb) h
    · simp only [List.length_cons] at hf
      exact .char (ih (by dsimp only; omega) h)

theorem ReadsText.readText {draft result : Draft σ} {c : Cursor}
    (h : ReadsText v depth draft c result) (fuel : Nat) (hf : 2 * c.tokens.length + 2 ≤ fuel) :
    Program.readText v depth fuel draft c = .ok result := by
  induction h generalizing fuel with
  | done => cases fuel <;> rfl
  | tag hi _ ih =>
    obtain ⟨fuel, rfl⟩ : ∃ f, fuel = f + 1 := ⟨fuel - 1, by omega⟩
    have hle := hi.length_le
    simp only [List.length_cons] at hf hle
    have hi := hi.read fuel (by dsimp only; omega)
    simp only [Program.readText, hi]
    exact ih fuel (by omega)
  | undone hb _ ih =>
    obtain ⟨fuel, rfl⟩ : ∃ f, fuel = f + 1 := ⟨fuel - 1, by omega⟩
    simp only [List.length_cons] at hf
    simp only [Program.readText, hb, if_true]
    exact ih fuel (by dsimp only; omega)
  | kept hb _ ih =>
    obtain ⟨fuel, rfl⟩ : ∃ f, fuel = f + 1 := ⟨fuel - 1, by omega⟩
    simp only [List.length_cons] at hf
    simp only [Program.readText, hb]
    exact ih fuel (by dsimp only; omega)
  | char _ ih =>
    obtain ⟨fuel, rfl⟩ : ∃ f, fuel = f + 1 := ⟨fuel - 1, by omega⟩
    simp only [List.length_cons] at hf
    exact ih fuel (by dsimp only; omega)

/-- Each argument of a list is read from its beginning. -/
theorem ReadsFields.exists_reads {spec : FieldSpec} {specs : List FieldSpec} {c c' : Cursor}
    {fields : List (Field (Invocation σ))} (h : ReadsFields v depth spec specs c fields c') :
    ∀ field ∈ fields, ∃ condition before closed after,
      ReadsField v depth condition {} none before field closed after := by
  match h with
  | .last one => exact List.forall_mem_singleton.2 ⟨_, _, _, _, one⟩
  | .again _ one more => exact List.forall_mem_cons.2 ⟨⟨_, _, _, _, one⟩, more.exists_reads⟩
  | .next _ one more => exact List.forall_mem_cons.2 ⟨⟨_, _, _, _, one⟩, more.exists_reads⟩

/-- The program of a text that was read. -/
def ofDraft (source : String) (path : Option String) (depth : Nat) (draft : Draft σ) : Program σ :=
  ⟨source, path, draft.text.code, draft.invocations, draft.text.finish, depth⟩

/-- **A template compiles to a program exactly when its tokens read as that program's
text.** -/
theorem compileAt_eq_ok_iff {source : String} {path : Option String} {p : Program σ} :
    compileAt v source path depth = .ok p ↔
      ∃ draft, ReadsText v depth {} ⟨Token.scan v.words source.toList, 0⟩ draft ∧
        p = ofDraft source path depth draft := by
  simp only [compileAt]
  constructor
  · intro h
    split at h
    · rename_i draft hd
      cases h
      exact ⟨draft, .of_readText (Nat.le_refl _) hd, rfl⟩
    · cases h
  · rintro ⟨draft, hd, rfl⟩
    rw [hd.readText _ (Nat.le_refl _)]
    rfl

/-- A program keeps the source and the path that it was compiled from. -/
theorem template_of_compileAt {source : String} {path : Option String} {p : Program σ}
    (h : compileAt v source path depth = .ok p) : p.source = source ∧ p.path = path := by
  obtain ⟨draft, -, rfl⟩ := compileAt_eq_ok_iff.1 h
  exact ⟨rfl, rfl⟩

end Program

end TagTemplate
