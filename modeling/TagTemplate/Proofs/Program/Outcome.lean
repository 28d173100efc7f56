import TagTemplate.Proofs.Program.Fuel
import TagTemplate.Proofs.Program.Head
import TagTemplate.Proofs.Program.TokensFrom

/-! What a head comes to.

Where a head stands, the tokens of the text from there on are what the reader of tokens has left. So
a head has an outcome: what the readers of tokens give from there, for the argument lists that are
open one after the other, and for the text at top level in the end (`Head.outcome`). For an open list
that is what its next argument gives (`Listing.finish_eq`), and then what the list gives behind that
argument. -/
namespace TagTemplate

namespace Program
variable {σ : Type}

section
variable (v : Vocabulary σ) (depth : Nat)

/-- What is read of an argument list from where it is read to. -/
def Listing.resume (l : Listing σ) (c : Cursor) :
    Except Problem (List (Field (Invocation σ)) × Cursor) :=
  match l.schema.fields.drop l.spec with
  | [] =>
    match c.tokens with
    | [] => .error (l.problem .unclosed)
    | .char ']' :: tokens => .ok ([], { c with tokens })
    | _ :: _ => .error (l.problem (.tooManyArguments 0))
  | spec :: specs =>
    fieldsFrom v depth l.tag.start l.native.signature.name l.schema.fields.length spec specs l.draft
      l.before c >>= fun (fields, c) => .ok (l.fields ++ fields, c)

/-- The invocation whose argument list is read, once the list is closed. -/
def Listing.finish (l : Listing σ) (c : Cursor) : Except Problem (Invocation σ × Cursor) :=
  l.resume v depth c >>= fun (fields, c) =>
    .ok (.mk (l.tag.tag.heading l.native c.next depth) l.native (some fields),
      { c with next := c.next + 1 })

/-- What comes out where an invocation is complete in some argument lists, or at top level. -/
def resumeWith : List (Listing σ) → Draft σ → Invocation σ → Cursor → Except Problem (Draft σ)
  | [], top, i, c => textAt v depth (top.invoke i) c
  | l :: ls, top, i, c =>
    Listing.finish v depth { l with draft := l.draft.invoke i } c >>= fun (i, c) =>
      resumeWith ls top i c

/-- What comes out in some argument lists, or at top level, of what is left. -/
def resume (listings : List (Listing σ)) (top : Draft σ) (c : Cursor) : Except Problem (Draft σ) :=
  match listings with
  | [] => textAt v depth top c
  | l :: ls => l.finish v depth c >>= fun (i, c) => resumeWith v depth ls top i c

variable (cs : List Char)

/-- The tokens that are left for a head. -/
def Head.cursor (h : Head σ) : Cursor := ⟨Token.scanFrom v.words cs h.index, h.next⟩

/-- What a head comes to in the end. -/
def Head.outcome (h : Head σ) : Except Problem (Draft σ) :=
  resume v depth h.listings h.draft (h.cursor v cs)

/-- Whether something is still to come out after a turn. -/
def Turn.Gives (result : Except Problem (Draft σ)) : Turn σ → Prop
  | .goes h => h.outcome v depth cs = result
  | .ends found => found = result
  | .strays => False

end

variable {v : Vocabulary σ} {depth : Nat} {cs : List Char}

/-- An invocation whose list is opened is what comes of the list. -/
theorem invocationAt_listed {p : Tag.Placed} {native : Native σ} {schema : ArgumentSchema}
    {ts : List Token} {n : Nat} (resolved : v.resolve p.tag.name = some native)
    (declared : native.signature.args = some schema) :
    invocationAt v depth p.start p.tag ⟨.char '[' :: ts, n⟩ =
      Listing.finish v depth { tag := p, native := native, schema := schema } ⟨ts, n⟩ := by
  rw [invocationAt, readInvocation]
  simp only [resolved, declared, readArguments, Listing.finish, Listing.resume, List.drop_zero]
  cases hfields : schema.fields with
  | nil =>
    cases ts with
    | nil => rfl
    | cons t ts =>
      by_cases ht : t = .char ']'
      · rw [ht]
        rfl
      · have hother (c : Char) (hc : t = .char c) : c ≠ ']' := fun heq => ht (heq ▸ hc)
        cases t with
        | tag start tag => rfl
        | escape hidden c => rfl
        | char c =>
          have hc := hother c rfl
          simp [hc]
          rfl
  | cons spec specs =>
    dsimp only
    rw [fieldsAt_of_fuel (by dsimp only [List.length_cons]; omega), fieldsAt_eq]
    cases fieldsFrom v depth p.start native.signature.name (spec :: specs).length spec specs {} none
        ⟨ts, n⟩ with
    | error q => rfl
    | ok one => rfl

/-! ### Argument lists -/

/-- The arguments behind one that was read, and the invocation that they are completed to. -/
def Listing.finishAfter (v : Vocabulary σ) (depth : Nat) (l : Listing σ) (spec : FieldSpec)
    (specs : List FieldSpec) (field : Field (Invocation σ)) (closed : Bool) (c : Cursor) :
    Except Problem (Invocation σ × Cursor) :=
  fieldsAfter v depth l.tag.start l.native.signature.name l.schema.fields.length spec specs closed c
    >>= fun (fields, c) =>
      .ok (.mk (l.tag.tag.heading l.native c.next depth) l.native (some (l.fields ++ field :: fields)),
        { c with next := c.next + 1 })

theorem Listing.finish_eq {l : Listing σ} {spec : FieldSpec} {specs : List FieldSpec}
    (hspecs : l.schema.fields.drop l.spec = spec :: specs) (c : Cursor) :
    l.finish v depth c =
      fieldAt v depth l.tag.start l.native.signature.name spec.condition l.draft l.before c >>=
        fun (field, closed, c) => l.finishAfter v depth spec specs field closed c := by
  rw [finish, resume, hspecs]
  simp only [fieldsFrom, finishAfter, bind_assoc]
  rfl

/-- A list whose next argument is not begun is read from there on. -/
theorem Listing.finish_fresh (l : Listing σ) {number : Nat} {spec : FieldSpec}
    {specs : List FieldSpec} (hspecs : l.schema.fields.drop number = spec :: specs)
    (field : Field (Invocation σ)) (c : Cursor) :
    (fieldsAt v depth l.tag.start l.native.signature.name l.schema.fields.length spec specs c >>=
      fun (fields, c) => .ok (.mk (l.tag.tag.heading l.native c.next depth) l.native
        (some (l.fields ++ field :: fields)), { c with next := c.next + 1 })) =
      Listing.finish v depth { l with
        spec := number, fields := l.fields ++ [field], draft := {}, before := none } c := by
  rw [finish, resume, hspecs, fieldsAt_eq]
  simp only [bind_assoc]
  cases fieldsFrom v depth l.tag.start l.native.signature.name l.schema.fields.length spec specs {}
      none c with
  | error problem => rfl
  | ok one => simp [Except.ok_bind]

/-- Under a spec that repeats, a list goes on with the same one. -/
theorem Listing.finishAfter_rest {l : Listing σ} {spec : FieldSpec} {specs : List FieldSpec}
    (hspecs : l.schema.fields.drop l.spec = spec :: specs) (hrest : spec.rest = true)
    (field : Field (Invocation σ)) (c : Cursor) :
    l.finishAfter v depth spec specs field false c =
      Listing.finish v depth { l with
        fields := l.fields ++ [field], draft := {}, before := none } c := by
  unfold finishAfter fieldsAfter
  rw [if_neg Bool.false_ne_true, if_pos hrest]
  exact l.finish_fresh hspecs field c

/-- Under any other spec, a list goes on with the next one, -/
theorem Listing.finishAfter_next {l : Listing σ} {spec spec' : FieldSpec} {specs : List FieldSpec}
    (hspecs : l.schema.fields.drop (l.spec + 1) = spec' :: specs) (hrest : ¬ spec.rest = true)
    (field : Field (Invocation σ)) (c : Cursor) :
    l.finishAfter v depth spec (spec' :: specs) field false c =
      Listing.finish v depth { l with
        spec := l.spec + 1, fields := l.fields ++ [field], draft := {}, before := none } c := by
  rw [finishAfter, fieldsAfter, if_neg Bool.false_ne_true, if_neg hrest]
  exact l.finish_fresh hspecs field c

/-- and where there is none, the argument that is to follow is one too many. -/
theorem Listing.finishAfter_beyond {l : Listing σ} {spec : FieldSpec} (hrest : ¬ spec.rest = true)
    (field : Field (Invocation σ)) (c : Cursor) :
    l.finishAfter v depth spec [] field false c =
      .error (l.problem (.tooManyArguments l.schema.fields.length)) := by
  rw [finishAfter, fieldsAfter, if_neg Bool.false_ne_true, if_neg hrest]
  rfl

/-- A list that is to stay empty is not closed where the text ends, -/
theorem Listing.finish_ended {l : Listing σ} (hempty : l.schema.fields.drop l.spec = []) (n : Nat) :
    l.finish v depth ⟨[], n⟩ = .error (l.problem .unclosed) := by
  rw [finish, resume, hempty]
  rfl

/-- and it is closed where its bracket comes. -/
theorem Listing.finish_closed {l : Listing σ} (hempty : l.schema.fields.drop l.spec = [])
    (ts : List Token) (n : Nat) :
    l.finish v depth ⟨.char ']' :: ts, n⟩ =
      .ok (.mk (l.tag.tag.heading l.native n depth) l.native (some []), ⟨ts, n + 1⟩) := by
  rw [finish, resume, hempty]
  rfl

/-- Anything else in it is too much. -/
theorem Listing.finish_filled {l : Listing σ} (hempty : l.schema.fields.drop l.spec = [])
    {ts : List Token} {n : Nat} (hsome : ts ≠ []) (hopen : ∀ later, ts ≠ .char ']' :: later) :
    l.finish v depth ⟨ts, n⟩ = .error (l.problem (.tooManyArguments 0)) := by
  rw [finish, resume, hempty]
  dsimp only
  split
  · exact absurd rfl hsome
  · exact absurd rfl (hopen _)
  · rfl

/-- Of an argument it only matters what its draft will be. -/
theorem Listing.finish_congr {l : Listing σ} {spec : FieldSpec} {specs : List FieldSpec}
    (hspecs : l.schema.fields.drop l.spec = spec :: specs) {c c' : Cursor} {draft : Draft σ}
    {before : Option (Operator × Draft σ)}
    (h : fieldAt v depth l.tag.start l.native.signature.name spec.condition l.draft l.before c =
      fieldAt v depth l.tag.start l.native.signature.name spec.condition draft before c') :
    l.finish v depth c =
      Listing.finish v depth { l with draft := draft, before := before } c' := by
  rw [finish_eq hspecs, h, finish_eq (l := { l with draft := draft, before := before }) hspecs]
  rfl

end Program

end TagTemplate
