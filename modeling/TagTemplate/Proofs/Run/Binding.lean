import TagTemplate.Proofs.Program.Schema
import TagTemplate.Proofs.Run.Order
import TagTemplate.Proofs.Run.Resolved

/-! How written arguments become arguments.

The reader takes the specs of a schema one after another up to the first that repeats, and
stays there: `ArgumentSchema.specAt`. What an argument list should come to is then plain: one
argument for each field before that spec, and one array of all the fields from there on, which is
`ArgumentSchema.bind`. A call goes by positions instead, so a field behind the first rest spec
is left out of the array when its position is that of a single spec.
`ArgumentSchema.gather_eq_bind_iff` says that this is the only difference, and
`Invocation.binds_as_read` what it means for a call. -/
namespace TagTemplate

/-! ### Values and specs -/

namespace ArgumentSchema
variable (s : ArgumentSchema)

/-- The arguments that values come to under the specs that their fields are read under. -/
def bind (values : List Json) : List Json :=
  values.take s.restAt ++
    if values.length ≤ s.restAt then [] else [.array (values.drop s.restAt)]

/-- Whether some required spec receives none of the given number of fields. -/
def Lacks (given : Nat) : Prop :=
  ∃ position spec, s.fields[position]? = some spec ∧ spec.required = true ∧
    ∀ field < given, min field s.restAt ≠ position

/-- Whether a call gathers all the fields behind the first rest spec. -/
def GathersBehind (given : Nat) : Prop :=
  ∀ position, s.restAt < position → position < given → s.gathers position = true

end ArgumentSchema

/-! ### Values of fields -/

namespace ArgumentSchema
variable {s : ArgumentSchema} {position : Nat}

theorem restAt_le : s.restAt ≤ s.fields.length := List.findIdx_le_length

/-- A field before the first rest spec is an argument of its own. -/
theorem gathers_of_lt (h : position < s.restAt) : s.gathers position = false := by
  have hlt : position < s.fields.length := Nat.lt_of_lt_of_le h restAt_le
  have hmin : min position (s.fields.length - 1) = position := by omega
  have hsingle : (s.fields[position]).rest = false := List.not_of_lt_findIdx h
  rw [gathers, hmin, List.getElem?_eq_getElem hlt]
  exact hsingle

/-- The field of the first rest spec is gathered. -/
theorem gathers_restAt (h : s.restAt < s.fields.length) : s.gathers s.restAt = true := by
  have hmin : min s.restAt (s.fields.length - 1) = s.restAt := by omega
  have hrest : (s.fields[s.restAt]).rest = true := List.findIdx_getElem (w := h)
  rw [gathers, hmin, List.getElem?_eq_getElem h]
  exact hrest

/-- The values from the first rest spec on, with the positions of their fields. -/
def behind (s : ArgumentSchema) (values : List Json) : List (Json × Nat) :=
  (values.drop s.restAt).zipIdx (values.take s.restAt).length

theorem map_fst_behind (values : List Json) :
    (s.behind values).map (·.1) = values.drop s.restAt := List.zipIdx_map_fst _ _

/-- What a call makes of values: those before the first rest spec come first in any case. -/
theorem gather_eq_append (values : List Json) :
    s.gather values = values.take s.restAt ++
      (((s.behind values).filter fun v => !s.gathers v.2).map (·.1) ++
        if ((s.behind values).filter fun v => s.gathers v.2).isEmpty then []
        else [.array (((s.behind values).filter fun v => s.gathers v.2).map (·.1))]) := by
  have hsplit : values.zipIdx = (values.take s.restAt).zipIdx ++ s.behind values := by
    conv => lhs; rw [← List.take_append_drop s.restAt values, List.zipIdx_append]
    rw [Nat.zero_add]
    rfl
  have hbefore : ∀ v ∈ (values.take s.restAt).zipIdx, s.gathers v.2 = false := by
    intro v hv
    have hlt := List.snd_lt_of_mem_zipIdx hv
    rw [List.length_take] at hlt
    exact gathers_of_lt (by omega)
  have halone : (values.take s.restAt).zipIdx.filter (fun v => !s.gathers v.2) =
      (values.take s.restAt).zipIdx :=
    List.filter_eq_self.2 fun v hv => by rw [hbefore v hv]; rfl
  have hnone : (values.take s.restAt).zipIdx.filter (fun v => s.gathers v.2) = [] :=
    List.filter_eq_nil_iff.2 fun v hv => by rw [hbefore v hv]; exact Bool.false_ne_true
  rw [gather, hsplit, List.filter_append, List.filter_append, halone, hnone, List.nil_append,
    List.map_append, List.zipIdx_map_fst, List.append_assoc]

theorem gathersBehind_iff {values : List Json} (hrest : s.restAt < s.fields.length) :
    s.GathersBehind values.length ↔ ∀ v ∈ s.behind values, s.gathers v.2 = true := by
  constructor
  · intro h v hv
    obtain ⟨hle, hlt, -⟩ := List.mem_zipIdx hv
    rw [List.length_take, List.length_drop] at hlt
    rw [List.length_take] at hle
    rcases Nat.lt_or_eq_of_le (show s.restAt ≤ v.2 by omega) with hbehind | heq
    · exact h v.2 hbehind (by omega)
    · rw [← heq]
      exact gathers_restAt hrest
  · intro h position hbehind hlt
    refine h (values[position], position) ?_
    rw [behind, List.mem_zipIdx_iff_le_and_getElem?_sub, List.length_take]
    refine ⟨by dsimp only; omega, ?_⟩
    rw [List.getElem?_drop]
    have hposition : s.restAt + (position - min s.restAt values.length) = position := by omega
    rw [hposition, List.getElem?_eq_getElem hlt]

/-- **A call binds the values of fields as the fields were read exactly when all behind the
first rest spec are gathered.** -/
theorem gather_eq_bind_iff {values : List Json}
    (hread : s.restAt < values.length → s.restAt < s.fields.length) :
    s.gather values = s.bind values ↔ s.GathersBehind values.length := by
  rw [gather_eq_append, bind]
  by_cases hshort : values.length ≤ s.restAt
  · have hnil : s.behind values = [] := by rw [behind, List.drop_eq_nil_of_le hshort]; rfl
    rw [hnil, if_pos hshort]
    exact ⟨fun _ position hbehind hlt => by omega, fun _ => rfl⟩
  have hlong : s.restAt < values.length := Nat.lt_of_not_le hshort
  have hfirst : (values[s.restAt], s.restAt) ∈ s.behind values := by
    rw [behind, List.mem_zipIdx_iff_le_and_getElem?_sub, List.length_take,
      Nat.min_eq_left (Nat.le_of_lt hlong), Nat.sub_self, List.getElem?_drop]
    exact ⟨Nat.le_refl _, List.getElem?_eq_getElem hlong⟩
  have hrest := gathers_restAt (hread hlong)
  rw [gathersBehind_iff (hread hlong), if_neg hshort, List.append_cancel_left_eq]
  constructor
  · intro h v hv
    -- Anything left out of the array would stand beside it.
    have hsome : ¬ ((s.behind values).filter fun v => s.gathers v.2).isEmpty = true := by
      rw [List.isEmpty_iff]
      exact List.ne_nil_of_mem (List.mem_filter.2 ⟨hfirst, hrest⟩)
    rw [if_neg hsome] at h
    have hlength := congrArg List.length h
    rw [List.length_append, List.length_singleton, List.length_singleton, List.length_map,
      Nat.add_eq_right, List.length_eq_zero_iff, List.filter_eq_nil_iff] at hlength
    simpa using hlength v hv
  · intro h
    have hall : (s.behind values).filter (fun v => s.gathers v.2) = s.behind values :=
      List.filter_eq_self.2 h
    have hnone : (s.behind values).filter (fun v => !s.gathers v.2) = [] :=
      List.filter_eq_nil_iff.2 fun v hv => by rw [h v hv]; exact Bool.false_ne_true
    have hsome : ¬ (s.behind values).isEmpty = true := by
      rw [List.isEmpty_iff]
      exact List.ne_nil_of_mem hfirst
    rw [hall, hnone, if_neg hsome, map_fst_behind]
    rfl

/-- **However many fields are written**, a call gathers all behind the first rest spec exactly
when every spec behind it is a rest spec. -/
theorem forall_gathersBehind_iff (hrest : s.restAt < s.fields.length) :
    (∀ given, s.GathersBehind given) ↔ ∀ spec ∈ s.fields.drop (s.restAt + 1), spec.rest = true := by
  constructor
  · intro h spec hmem
    obtain ⟨k, hk⟩ := List.mem_iff_getElem?.1 hmem
    rw [List.getElem?_drop] at hk
    have hlt := (List.getElem?_eq_some_iff.1 hk).1
    have hgathers := h (s.restAt + 1 + k + 1) (s.restAt + 1 + k) (by omega) (by omega)
    rwa [gathers, Nat.min_eq_left (by omega), hk] at hgathers
  · intro h given position hbehind _
    have hlast : min position (s.fields.length - 1) < s.fields.length := by omega
    rw [gathers, List.getElem?_eq_getElem hlast]
    -- The positions beyond the schema all go by its last spec, which may be the first rest spec.
    rcases Nat.lt_or_ge s.restAt (min position (s.fields.length - 1)) with hlt | hge
    · refine h _ (List.mem_iff_getElem?.2
        ⟨min position (s.fields.length - 1) - (s.restAt + 1), ?_⟩)
      rw [List.getElem?_drop, Nat.add_sub_cancel' hlt, List.getElem?_eq_getElem hlast]
    · have heq : min position (s.fields.length - 1) = s.restAt := by omega
      simp only [heq]
      exact List.findIdx_getElem (w := hrest)

/-! ### Required arguments -/

theorem length_bind (values : List Json) :
    (s.bind values).length = min values.length (s.restAt + 1) := by
  rw [bind, List.length_append, List.length_take]
  split
  · rw [List.length_nil]
    omega
  · rw [List.length_singleton]
    omega

/-- A spec receives no field when it lies beyond the arguments that the fields come to. -/
theorem forall_min_ne_iff {given : Nat} :
    (∀ field < given, min field s.restAt ≠ position) ↔ min given (s.restAt + 1) ≤ position := by
  constructor
  · intro h
    refine Nat.le_of_not_lt fun hlt => ?_
    exact h position (by omega) (by omega)
  · intro h field hfield
    omega

/-- The specs that lie beyond the bound arguments are those that receive no field. -/
theorem mem_drop_bind_iff {values : List Json} {spec : FieldSpec} :
    spec ∈ s.fields.drop (s.bind values).length ↔ ∃ position, s.fields[position]? = some spec ∧
      ∀ field < values.length, min field s.restAt ≠ position := by
  rw [List.mem_iff_getElem?, length_bind]
  constructor
  · rintro ⟨k, hk⟩
    rw [List.getElem?_drop] at hk
    exact ⟨_, hk, forall_min_ne_iff.2 (Nat.le_add_right _ k)⟩
  · rintro ⟨position, hspec, hnone⟩
    obtain ⟨k, rfl⟩ := Nat.exists_eq_add_of_le (forall_min_ne_iff.1 hnone)
    exact ⟨k, by rw [List.getElem?_drop, hspec]⟩

/-- No argument is missing among the bound ones exactly when none is lacking. -/
theorem missing?_bind_eq_none_iff {values : List Json} :
    s.missing? (s.bind values).length = none ↔ ¬ s.Lacks values.length := by
  rw [missing?, List.find?_eq_none]
  constructor
  · rintro h ⟨position, spec, hspec, hrequired, hnone⟩
    exact h spec (mem_drop_bind_iff.2 ⟨position, hspec, hnone⟩) hrequired
  · intro h spec hmem hrequired
    obtain ⟨position, hspec, hnone⟩ := mem_drop_bind_iff.1 hmem
    exact h ⟨position, spec, hspec, hrequired, hnone⟩

end ArgumentSchema

/-! ### Calls -/

/-- The value of a field whose invocations have some values. -/
def Field.value {ι : Type} : Field ι → List Json → Json
  | .plain text, values => .string (text.template.resolve values)
  | .condition op lhs none, values => .bool (op.holds (lhs.template.resolve values) none)
  | .condition op lhs (some rhs), values =>
    .bool (op.holds (lhs.template.resolve (values.take lhs.invocations.length))
      (some (rhs.template.resolve (values.drop lhs.invocations.length))))

/-- The values of fields whose invocations, taken together, have some values. -/
def Field.values {ι : Type} : List (Field ι) → List Json → List Json
  | [], _ => []
  | field :: fields, results =>
    field.value (results.take field.invocations.length) ::
      values fields (results.drop field.invocations.length)

theorem Field.length_values {ι : Type} (fields : List (Field ι)) (results : List Json) :
    (Field.values fields results).length = fields.length := by
  induction fields generalizing results with
  | nil => rfl
  | cons field fields ih => rw [values, List.length_cons, List.length_cons, ih]

section
variable {σ : Type} {is js : List (Invocation σ)} {c d e : Clocked (Context σ)}
  {results : List Json}

namespace Succeed

/-- Where all of two lists succeed, those of the first do, and behind them those of the other. -/
theorem split (h : Succeed (is ++ js) c results e) :
    ∃ d, Succeed is c (results.take is.length) d ∧
      Succeed js d (results.drop is.length) e := by
  induction is generalizing c results with
  | nil => exact ⟨c, .nil, h⟩
  | cons i is ih =>
    cases h with
    | cons first rest =>
      obtain ⟨d, hfirst, hrest⟩ := ih rest
      exact ⟨d, .cons first hfirst, hrest⟩

theorem contributions_eq (h : Succeed is c results d) :
    Invocation.contributions is c = (some (.ok results), d) := by
  induction h with
  | nil => rfl
  | cons first rest ih =>
    rw [Invocation.contributions, Timed.bind_some first]
    exact Timed.bind_some ih

theorem resolveText_eq {text : FieldText (Invocation σ)}
    (h : Succeed text.invocations c results d) :
    Invocation.resolveText text c = (some (.ok (text.template.resolve results)), d) := by
  obtain ⟨value, invocations, template⟩ := text
  rw [Invocation.resolveText, Timed.bind_some h.contributions_eq]
  rfl

theorem resolveField_eq {field : Field (Invocation σ)}
    (h : Succeed field.invocations c results d) :
    Invocation.resolveField field c = (some (.ok (field.value results)), d) := by
  match field with
  | .plain text =>
    replace h : Succeed text.invocations c results d := h
    rw [Invocation.resolveField, Timed.bind_some h.resolveText_eq]
    rfl
  | .condition op lhs none =>
    replace h : Succeed lhs.invocations c results d := h
    rw [Invocation.resolveField, Timed.bind_some h.resolveText_eq]
    rfl
  | .condition op lhs (some rhs) =>
    obtain ⟨e, hlhs, hrhs⟩ := split h
    rw [Invocation.resolveField, Timed.bind_some hlhs.resolveText_eq]
    exact Timed.bind_some hrhs.resolveText_eq

/-- Where all invocations in some fields succeed, the fields have their values. -/
theorem resolveAll_eq {fields : List (Field (Invocation σ))}
    (h : Succeed (fields.flatMap Field.invocations) c results d) :
    Invocation.resolveAll (Invocation.resolvers fields) c =
      (some (.ok (Field.values fields results)), d) := by
  induction fields generalizing c results with
  | nil =>
    cases h
    rw [Invocation.resolvers]
    rfl
  | cons field fields ih =>
    rw [List.flatMap_cons] at h
    obtain ⟨e, hfield, hfields⟩ := h.split
    rw [Invocation.resolvers, Invocation.resolveAll, Timed.bind_some hfield.resolveField_eq]
    exact Timed.bind_some (ih hfields)

end Succeed

namespace Invocation
variable {i : Invocation σ} {schema : ArgumentSchema}

section
variable (heager : i.native.signature.eager = true)
  (hargs : i.native.signature.args = some schema)
  (hnested : Succeed i.nested (c.enter i.heading) results d)
include heager hargs hnested

/-- What becomes of an invocation whose nested invocations all succeed. -/
theorem execute_of_succeed :
    i.execute c = finishing i.heading
      (match schema.missing?
          (schema.gather (Field.values (i.fields.getD []) results)).length with
        | some spec => pure (.ok (i.heading.lacks spec))
        | none => call i.heading i.native (resolvers (i.fields.getD []))
            (schema.gather (Field.values (i.fields.getD []) results))) d := by
  have hresolve : resolveAll (resolvers (i.fields.getD [])) (c.enter i.heading) =
      (some (.ok (Field.values (i.fields.getD []) results)), d) := hnested.resolveAll_eq
  have hentered : Run.record (.entered i.heading) c = (some (), c.enter i.heading) := rfl
  rw [execute_eq]
  refine finishing_congr ?_
  rw [perform, heager, hargs, Timed.bind_some hentered]
  exact Timed.bind_some hresolve

theorem execute_of_missing {spec : FieldSpec}
    (hmissing : schema.missing?
      (schema.gather (Field.values (i.fields.getD []) results)).length = some spec) :
    i.execute c = (some (.ok (i.heading.lacks spec)), d) := by
  rw [execute_of_succeed heager hargs hnested, hmissing]
  rfl

theorem execute_of_complete
    (hmissing : schema.missing?
      (schema.gather (Field.values (i.fields.getD []) results)).length = none) :
    i.execute c = finishing i.heading (call i.heading i.native (resolvers (i.fields.getD []))
      (schema.gather (Field.values (i.fields.getD []) results))) d := by
  rw [execute_of_succeed heager hargs hnested, hmissing]

end

/-- **Arguments are bound under the specs they were read under, if a call gathers all the
fields behind the first rest spec.** Then an invocation whose nested invocations all succeed
calls its native with one argument for each field before that spec and one array of the fields
from there on; unless some required spec receives no field, and then it fails and calls
nothing. In a call that leaves some of these fields out of the array the arguments are others. -/
theorem binds_as_read {v : Vocabulary σ} {source : String} {path : Option String} {depth : Nat}
    {p : Program σ} (hcompile : Program.compileAt v source path depth = .ok p)
    (hi : i ∈ p.postorder) (heager : i.native.signature.eager = true)
    (hargs : i.native.signature.args = some schema)
    (hnested : Succeed i.nested (c.enter i.heading) results d) :
    let fields := i.fields.getD []
    let values := Field.values fields results
    (∀ position field, fields[position]? = some field →
      ∃ spec, schema.specAt position = some spec ∧ spec.Reads v depth field) ∧
    (schema.GathersBehind fields.length →
      (¬ schema.Lacks fields.length → i.execute c =
        finishing i.heading (call i.heading i.native (resolvers fields) (schema.bind values)) d) ∧
      (schema.Lacks fields.length → ∃ position spec, schema.fields[position]? = some spec ∧
        spec.required = true ∧ (∀ field < fields.length, min field schema.restAt ≠ position) ∧
        i.execute c = (some (.ok (.failure
          ⟨"Missing required argument \"" ++ spec.name ++ "\" of " ++ i.heading.name, none⟩)),
          d))) ∧
    (¬ schema.GathersBehind fields.length → schema.gather values ≠ schema.bind values ∧
      ((∃ spec, schema.missing? (schema.gather values).length = some spec ∧
          i.execute c = (some (.ok (i.heading.lacks spec)), d)) ∨
        (schema.missing? (schema.gather values).length = none ∧ i.execute c =
          finishing i.heading (call i.heading i.native (resolvers fields) (schema.gather values))
            d))) := by
  intro fields values
  obtain ⟨_, _, _, hread⟩ := Program.reads_of_mem_postorder hcompile i hi
  have hreads : ∀ position field, fields[position]? = some field →
      ∃ spec, schema.specAt position = some spec ∧ spec.Reads v depth field :=
    fun position field hfield => hread.reads hargs hfield
  have hlength : values.length = fields.length := Field.length_values fields results
  have hrest (h : schema.restAt < values.length) : schema.restAt < schema.fields.length := by
    rw [hlength] at h
    obtain ⟨spec, hspec, -⟩ := hreads _ _ (List.getElem?_eq_getElem h)
    rw [ArgumentSchema.specAt, Nat.min_self] at hspec
    exact (List.getElem?_eq_some_iff.1 hspec).1
  have hbind := schema.gather_eq_bind_iff hrest
  rw [hlength] at hbind
  refine ⟨hreads, fun hgathers => ?_, fun hgathers => ⟨fun h => hgathers (hbind.1 h), ?_⟩⟩
  · have hbound : schema.gather values = schema.bind values := hbind.2 hgathers
    have hmissing : schema.missing? (schema.bind values).length = none ↔
        ¬ schema.Lacks fields.length := hlength ▸ schema.missing?_bind_eq_none_iff
    refine ⟨fun hnone => ?_, fun hlacks => ?_⟩
    · rw [execute_of_complete heager hargs hnested (hbound.symm ▸ hmissing.2 hnone)]
      exact congrArg (fun args => finishing i.heading (call i.heading i.native _ args) d) hbound
    · obtain ⟨spec, hspec⟩ := Option.ne_none_iff_exists'.1 fun h => hmissing.1 h hlacks
      obtain ⟨position, hposition, hreceives⟩ :=
        ArgumentSchema.mem_drop_bind_iff.1 (List.mem_of_find?_eq_some hspec)
      refine ⟨position, spec, hposition, List.find?_some hspec, hlength ▸ hreceives, ?_⟩
      exact execute_of_missing heager hargs hnested (hbound.symm ▸ hspec)
  · cases hmissing : schema.missing? (schema.gather values).length with
    | some spec => exact .inl ⟨spec, rfl, execute_of_missing heager hargs hnested hmissing⟩
    | none => exact .inr ⟨rfl, execute_of_complete heager hargs hnested hmissing⟩

/-- A separator before two items, the first of them a nested invocation. -/
theorem binds_as_read_join :
    let schema : ArgumentSchema :=
      ⟨false, [{ name := "separator" }, { name := "items", rest := true }]⟩
    let join : Native Unit :=
      ⟨{ name := "$join", args := some schema }, false, fun call => .succeed (.array call.args)⟩
    let natives : List (Native Unit) := [join, Builtin.getNative]
    let source := "$join[-;$get[x];b]"
    let get : Invocation Unit :=
      .mk ⟨0, "$get", false, false, none, 0⟩ Builtin.getNative
        (some [.plain ⟨"x", [], .literal "x"⟩])
    let i : Invocation Unit :=
      .mk ⟨1, "$join", false, false, none, 0⟩ join
        (some [.plain ⟨"-", [], .literal "-"⟩, .plain ⟨"[@fn:0]", [get], ⟨[.slot 0]⟩⟩,
          .plain ⟨"b", [], .literal "b"⟩])
    let p : Program Unit := ⟨source, none, "[@fn:1]", [i], ⟨[.slot 0]⟩, 0⟩
    let c : Context Unit :=
      { program := p
        vocabulary := .ofNatives natives
        session := { keywords := [("x", .string "a")] }
        memory := () }
    Program.compileAt (.ofNatives natives) source none 0 = .ok p ∧ i ∈ p.postorder ∧
      (∃ d, Succeed i.nested (Clocked.enter i.heading ⟨none, c⟩) [.string "a"] d ∧
        i.execute ⟨none, c⟩ = finishing i.heading
          (call i.heading join (resolvers (i.fields.getD []))
            [.string "-", .array [.string "a", .string "b"]]) d) := by
  intro schema join natives source get i p c
  have hcompile : Program.compileAt (.ofNatives natives) source none 0 = .ok p := by
    subst p i get source natives join schema
    with_unfolding_all rfl
  have hi : i ∈ p.postorder :=
    List.mem_flatMap_of_mem (List.mem_singleton_self i) i.mem_postorder
  obtain ⟨d, hnested⟩ : ∃ d, Succeed i.nested (Clocked.enter i.heading ⟨none, c⟩)
      [.string "a"] d := ⟨_, .cons rfl .nil⟩
  have hbehind : ∀ spec ∈ schema.fields.drop (schema.restAt + 1), spec.rest = true := by decide
  obtain ⟨-, hgathers, -⟩ := binds_as_read hcompile hi rfl rfl hnested
  obtain ⟨hcalls, -⟩ := hgathers ((ArgumentSchema.forall_gathersBehind_iff (by decide)).2 hbehind _)
  refine ⟨hcompile, hi, d, hnested, hcalls ?_⟩
  rintro ⟨position, spec, hspec, -, hnone⟩
  match position, hspec with
  | 0, _ => exact hnone 0 (by decide) (by decide)
  | 1, _ => exact hnone 1 (by decide) (by decide)

/-- The second and the third of three fields were read under the rest spec before them, but
stand where the schema has a single one: they are not in the array, and come before it. -/
theorem call_ne_bind_behind_rest :
    let schema : ArgumentSchema :=
      ⟨false, [{ name := "a", rest := true }, { name := "b", required := false }]⟩
    let f : Native Unit :=
      ⟨{ name := "$f", args := some schema }, false, fun call => .succeed (.array call.args)⟩
    let i : Invocation Unit :=
      .mk ⟨0, "$f", false, false, none, 0⟩ f
        (some [.plain ⟨"x", [], .literal "x"⟩, .plain ⟨"y", [], .literal "y"⟩,
          .plain ⟨"z", [], .literal "z"⟩])
    let p : Program Unit := ⟨"$f[x;y;z]", none, "[@fn:0]", [i], ⟨[.slot 0]⟩, 0⟩
    let c : Context Unit := { program := p, vocabulary := .ofNatives [f], memory := () }
    let values : List Json := Field.values (i.fields.getD []) []
    Program.compileAt (.ofNatives [f]) "$f[x;y;z]" none 0 = .ok p ∧ f.signature.eager = true ∧
      i.nested = [] ∧ schema.restAt = 0 ∧ values = [.string "x", .string "y", .string "z"] ∧
      schema.bind values = [.array values] ∧ ¬ schema.Lacks values.length ∧
      c.run.2.session.calls = [⟨i.heading, 3, [.string "y", .string "z", .array [.string "x"]]⟩] := by
  intro schema f i p c values
  have hcompile : Program.compileAt (.ofNatives [f]) "$f[x;y;z]" none 0 = .ok p := by
    subst p i f schema
    with_unfolding_all rfl
  refine ⟨hcompile, rfl, rfl, rfl, rfl, rfl, ?_, by decide +kernel⟩
  rintro ⟨position, spec, hspec, hrequired, hnone⟩
  match position, hspec with
  | 0, _ => exact hnone 0 (by decide) (by decide)
  | 1, hspec =>
    cases hspec
    cases hrequired

end Invocation

end

end TagTemplate
