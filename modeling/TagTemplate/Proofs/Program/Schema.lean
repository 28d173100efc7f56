import TagTemplate.Native.Builtin
import TagTemplate.Proofs.Program.Listing
import TagTemplate.Proofs.Program.Spelling

/-! Written arguments fit the schema they were read under.

The reader takes the specs of a schema one after another up to the first that repeats, and
stays there: `ArgumentSchema.specAt`. So each field of an invocation was read under the spec of
its position, and is a condition exactly when that spec is one; and since positions without a
spec have no field, there are no more fields than specs unless one repeats.
`Program.fitsSchema_of_compileAt` says it of all invocations of a compiled program. -/
namespace TagTemplate

/-! ### Specs of fields -/

namespace ArgumentSchema
variable (s : ArgumentSchema)

/-- The position of the first rest spec; the number of specs if there is none. -/
def restAt : Nat := s.fields.findIdx (·.rest)

/-- The spec under which the field at a position is read, if there may be one. -/
def specAt (position : Nat) : Option FieldSpec := s.fields[min position s.restAt]?

end ArgumentSchema

section
variable {σ : Type} {v : Vocabulary σ} {depth : Nat}

/-- Whether a field was read under a spec. -/
def FieldSpec.Reads (v : Vocabulary σ) (depth : Nat) (spec : FieldSpec)
    (field : Field (Invocation σ)) : Prop :=
  ∃ c closed c', Program.ReadsField v depth spec.condition {} none c field closed c'

namespace Program

/-- Fields are read under one spec after another, up to the first rest spec. -/
theorem ReadsFields.reads {spec : FieldSpec} {specs : List FieldSpec} {c c' : Cursor}
    {fields : List (Field (Invocation σ))} (h : ReadsFields v depth spec specs c fields c')
    {position : Nat} {field : Field (Invocation σ)} (hfield : fields[position]? = some field) :
    ∃ s, (spec :: specs)[min position ((spec :: specs).findIdx (·.rest))]? = some s ∧
      s.Reads v depth field := by
  match h, position with
  | .last hone, 0 =>
    cases hfield
    exact ⟨spec, by rw [Nat.zero_min]; rfl, _, _, _, hone⟩
  | .again _ hone _, 0 | .next _ hone _, 0 =>
    cases hfield
    exact ⟨spec, by rw [Nat.zero_min]; rfl, _, _, _, hone⟩
  | .again hrest _ hmore, position + 1 =>
    have hfirst : (spec :: specs).findIdx (·.rest) = 0 := by rw [List.findIdx_cons, hrest]; rfl
    obtain ⟨s, hs, hreads⟩ := hmore.reads hfield
    rw [hfirst, Nat.min_zero] at hs ⊢
    exact ⟨s, hs, hreads⟩
  | .next hsingle _ hmore, position + 1 =>
    have hlater (later : List FieldSpec) :
        (spec :: later).findIdx (·.rest) = later.findIdx (·.rest) + 1 := by
      rw [List.findIdx_cons, hsingle]
      rfl
    obtain ⟨s, hs, hreads⟩ := hmore.reads hfield
    rw [hlater, Nat.succ_min_succ]
    exact ⟨s, hs, hreads⟩

/-- **The reader reads each field of an invocation under the spec of its position.** -/
theorem ReadsInvocation.reads {tag : Tag} {c c' : Cursor} {i : Invocation σ}
    (h : ReadsInvocation v depth tag c i c') {schema : ArgumentSchema}
    (hargs : i.native.signature.args = some schema) {position : Nat}
    {field : Field (Invocation σ)} (hfield : (i.fields.getD [])[position]? = some field) :
    ∃ spec, schema.specAt position = some spec ∧ spec.Reads v depth field := by
  cases h with
  | mk _ harguments =>
    replace hargs : _ = some schema := hargs
    rw [Invocation.native] at hargs
    rw [hargs] at harguments
    cases harguments with
    | omitted | empty => cases hfield
    | listed hdeclared hlist =>
      rw [ArgumentSchema.specAt, ArgumentSchema.restAt, hdeclared]
      exact hlist.reads hfield

end Program

end

/-! ### Kinds of fields -/

/-- Whether an argument is a condition. -/
def Field.isCondition {ι : Type} : Field ι → Bool
  | .plain _ => false
  | .condition _ _ _ => true

/-- Whether an argument compares two sides if it names an operator, and has one side alone if it
does not. -/
def Field.Balanced {ι : Type} : Field ι → Prop
  | .plain _ => True
  | .condition op _ rhs => op = .unknown ↔ rhs = none

namespace Draft
variable {σ : Type} (draft : Draft σ) (condition : Bool)

theorem isCondition_field (before : Option (Operator × Draft σ)) :
    (draft.field condition before).isCondition = condition := by
  match condition, before with
  | false, _ | true, none | true, some _ => rfl

theorem balanced_field {before : Option (Operator × Draft σ)}
    (h : ∀ op lhs, before = some (op, lhs) → op ≠ .unknown) :
    (draft.field condition before).Balanced := by
  match condition, before with
  | false, _ => trivial
  | true, none => exact ⟨fun _ => rfl, fun _ => rfl⟩
  | true, some (op, lhs) => exact ⟨fun hop => absurd hop (h op lhs rfl), nofun⟩

end Draft

namespace Program
variable {σ : Type} {v : Vocabulary σ} {depth : Nat}

/-- What is read as an argument is a draft that was ended, behind an operator or without one; an
operator that stands before it was read as one. -/
theorem ReadsField.eq_field {condition : Bool} {draft : Draft σ}
    {before : Option (Operator × Draft σ)} {c c' : Cursor} {field : Field (Invocation σ)}
    {closed : Bool} (h : ReadsField v depth condition draft before c field closed c')
    (hbefore : ∀ op lhs, before = some (op, lhs) → op ≠ .unknown) :
    ∃ (draft : Draft σ) (before : Option (Operator × Draft σ)),
      field = draft.field condition before ∧
        ∀ op lhs, before = some (op, lhs) → op ≠ .unknown := by
  match h, hbefore with
  | .close _, hbefore => exact ⟨draft, before, rfl, hbefore⟩
  | .escape more, hbefore => exact more.eq_field hbefore
  | .tag _ more, hbefore => exact more.eq_field hbefore
  | .operator _ found more, _ =>
    refine more.eq_field fun op lhs heq => ?_
    cases heq
    unfold Token.operator? at found
    split at found
    · exact (Token.operator_cases found).1
    · cases found
  | .char _ _ more, hbefore => exact more.eq_field hbefore

theorem ReadsFields.ne_nil {spec : FieldSpec} {specs : List FieldSpec} {c c' : Cursor}
    {fields : List (Field (Invocation σ))} (h : ReadsFields v depth spec specs c fields c') :
    fields ≠ [] := by
  cases h <;> exact List.cons_ne_nil _ _

end Program

/-- A field is of the kind of the spec that it was read under. -/
theorem FieldSpec.Reads.kind {σ : Type} {v : Vocabulary σ} {depth : Nat} {spec : FieldSpec}
    {field : Field (Invocation σ)} (h : spec.Reads v depth field) :
    field.isCondition = spec.condition ∧ field.Balanced := by
  obtain ⟨_, _, _, hone⟩ := h
  obtain ⟨draft, before, rfl, hbefore⟩ := hone.eq_field nofun
  exact ⟨draft.isCondition_field _ before, draft.balanced_field _ hbefore⟩

/-! ### Schemas -/

/-- Whether a list of arguments is what a schema asks for. -/
structure ArgumentSchema.Fits {ι : Type} (s : ArgumentSchema) (fields : List (Field ι)) :
    Prop where
  /-- Only a schema without specs has an empty list. -/
  empty_iff : fields = [] ↔ s.fields = []
  /-- Each field is of the kind of its spec. -/
  kind : ∀ position field, fields[position]? = some field →
    ∃ spec, s.specAt position = some spec ∧ field.isCondition = spec.condition
  /-- Where no spec repeats, there are no more fields than specs. -/
  length_le : (∀ spec ∈ s.fields, spec.rest = false) → fields.length ≤ s.fields.length
  balanced : ∀ field ∈ fields, field.Balanced

/-- Where each field has a spec and no spec repeats, there are no more fields than specs. -/
theorem ArgumentSchema.length_le_of_specAt {ι : Type} {s : ArgumentSchema} {fields : List ι}
    (hspec : ∀ position field, fields[position]? = some field → ∃ spec, s.specAt position = some spec)
    (hrest : ∀ spec ∈ s.fields, spec.rest = false) : fields.length ≤ s.fields.length := by
  have hend : s.restAt = s.fields.length :=
    List.findIdx_eq_length.2 fun spec hmem => by rw [hrest spec hmem]
  refine Nat.le_of_not_lt fun hlt => ?_
  obtain ⟨spec, hspec⟩ := hspec s.fields.length _ (List.getElem?_eq_getElem hlt)
  rw [specAt, hend, Nat.min_self, List.getElem?_eq_none (Nat.le_refl _)] at hspec
  cases hspec

/-- Whether an invocation is as its native declares. -/
structure Invocation.FitsSchema {σ : Type} (i : Invocation σ) : Prop where
  name_eq : i.heading.name = i.native.signature.name
  /-- Without a schema there is no argument list. -/
  unlisted : i.native.signature.args = none → i.fields = none
  /-- A schema that requires brackets has an argument list. -/
  listed : ∀ s, i.native.signature.args = some s → s.brackets = true → i.fields ≠ none
  fits : ∀ s fields, i.native.signature.args = some s → i.fields = some fields → s.Fits fields

namespace Program
variable {σ : Type} {v : Vocabulary σ} {depth : Nat}

/-- An invocation is read with the arguments that its native declares. -/
theorem ReadsInvocation.arguments {tag : Tag} {c c' : Cursor} {i : Invocation σ}
    (h : ReadsInvocation v depth tag c i c') :
    i.heading.name = i.native.signature.name ∧
      ∃ c'', ReadsArguments v depth i.native.signature.args c i.fields c'' := by
  cases h with
  | mk _ ha => exact ⟨rfl, _, ha⟩

section
variable {schema : ArgumentSchema} {c c' : Cursor}

theorem ReadsArguments.eq_none {fields : Option (List (Field (Invocation σ)))}
    (h : ReadsArguments v depth none c fields c') : fields = none := by
  cases h
  rfl

theorem ReadsArguments.ne_none {fields : Option (List (Field (Invocation σ)))}
    (h : ReadsArguments v depth (some schema) c fields c') (hbrackets : schema.brackets = true) :
    fields ≠ none := by
  cases h with
  | omitted hoptional _ =>
    rw [hbrackets] at hoptional
    cases hoptional
  | empty _ => exact nofun
  | listed _ _ => exact nofun

theorem ReadsArguments.eq_nil_iff {fields : List (Field (Invocation σ))}
    (h : ReadsArguments v depth (some schema) c (some fields) c') :
    fields = [] ↔ schema.fields = [] := by
  cases h with
  | empty hnone => exact ⟨fun _ => hnone, fun _ => rfl⟩
  | listed hdeclared hlist =>
    rw [hdeclared]
    exact ⟨fun hnil => absurd hnil hlist.ne_nil, nofun⟩

end

/-- An invocation fits the schema of its native when it is read. -/
theorem ReadsInvocation.fitsSchema {tag : Tag} {c c' : Cursor} {i : Invocation σ}
    (h : ReadsInvocation v depth tag c i c') : i.FitsSchema := by
  obtain ⟨hname, c'', ha⟩ := h.arguments
  refine ⟨hname, fun hargs => ?_, fun s hargs => ?_, fun s fields hargs hfields => ?_⟩
  · rw [hargs] at ha
    exact ha.eq_none
  · rw [hargs] at ha
    exact ha.ne_none
  · rw [hargs, hfields] at ha
    have hreads (position : Nat) (field : Field (Invocation σ))
        (hfield : fields[position]? = some field) :
        ∃ spec, s.specAt position = some spec ∧ spec.Reads v depth field := by
      refine h.reads hargs ?_
      rwa [hfields]
    refine ⟨ha.eq_nil_iff, fun position field hfield => ?_, ?_, fun field hmem => ?_⟩
    · obtain ⟨spec, hspec, hread⟩ := hreads position field hfield
      exact ⟨spec, hspec, hread.kind.1⟩
    · exact ArgumentSchema.length_le_of_specAt fun position field hfield =>
        (hreads position field hfield).imp fun _ hspec => hspec.1
    · obtain ⟨position, hfield⟩ := List.mem_iff_getElem?.1 hmem
      obtain ⟨spec, -, hread⟩ := hreads position field hfield
      exact hread.kind.2

/-- **Every invocation of a compiled program fits the schema of its native**, however deep it is
nested. -/
theorem fitsSchema_of_compileAt {source : String} {path : Option String} {p : Program σ}
    (h : compileAt v source path depth = .ok p) : ∀ i ∈ p.walk, i.FitsSchema := by
  intro i hi
  obtain ⟨_, _, _, hread⟩ := reads_of_mem_postorder h i (p.walk_perm_postorder.mem_iff.1 hi)
  exact hread.fitsSchema

/-- A condition with a call in it, a call without an argument list, and a call with more arguments
than its schema has specs, since its only spec repeats. -/
theorem fitsSchema_of_compileAt_nested :
    let every : Native Unit :=
      ⟨{ name := "$every", args := some ⟨false, [⟨"case", true, true, true⟩]⟩ }, false,
        fun _ => .succeed .null⟩
    let v : Vocabulary Unit := .ofNatives (every :: Builtin.all)
    ∃ p : Program Unit,
      compileAt v "$if[$get[x]>=3;$stop;$every[a;b==c;d]]" none 0 = .ok p ∧
        p.walk.map (fun i => (i.heading.name, i.fields.map (·.map (·.isCondition)))) =
          [("$if", some [true, false, false]), ("$get", some [false]), ("$stop", none),
            ("$every", some [true, true, true])] ∧
        ∀ i ∈ p.walk, i.FitsSchema := by
  intro every v
  have hwalk : (compileAt v "$if[$get[x]>=3;$stop;$every[a;b==c;d]]" none 0).toOption.map (fun p =>
        p.walk.map fun i => (i.heading.name, i.fields.map (·.map (·.isCondition)))) =
      some [("$if", some [true, false, false]), ("$get", some [false]), ("$stop", none),
        ("$every", some [true, true, true])] := by decide +kernel
  cases hp : compileAt v "$if[$get[x]>=3;$stop;$every[a;b==c;d]]" none 0 with
  | error e =>
    rw [hp] at hwalk
    cases hwalk
  | ok p =>
    rw [hp] at hwalk
    exact ⟨p, rfl, Option.some.inj hwalk, fitsSchema_of_compileAt hp⟩

end Program

end TagTemplate
