import Mathlib.Data.List.Forall2
import TagTemplate.Proofs.Program.Order
import TagTemplate.Proofs.Program.Spelling

/-! The tags of a program.

A walk comes by an invocation before those nested in it, and these stand behind its tag in the
source. So the walk of a compiled program goes along the tags that are read in its source, from
the first to the last, and each invocation is of the tag that it comes by:
`Program.walk_of_compileAt`. The place where an invocation starts is that of its tag. -/
namespace TagTemplate

namespace Token

/-- The tag that a token is, with the number of the character at which it starts. -/
def tag? : Token → Option (Nat × Tag)
  | .tag start t => some (start, t)
  | _ => none

/-- The tags among some tokens. -/
def tags (ts : List Token) : List (Nat × Tag) := ts.filterMap tag?

theorem mem_tags {ts : List Token} {start : Nat} {t : Tag} :
    (start, t) ∈ tags ts ↔ Token.tag start t ∈ ts := by
  rw [tags, List.mem_filterMap]
  constructor
  · rintro ⟨token, hmem, htag⟩
    cases token with
    | tag _ _ =>
      cases htag
      exact hmem
    | escape _ _ => cases htag
    | char _ => cases htag
  · exact fun h => ⟨_, h, rfl⟩

/-- There is no tag in an operator. -/
theorem tags_drop_operator {c : Char} {ts : List Token} {op : Operator}
    (h : Operator.scan (((Token.char c :: ts).take 2).map lead) = some op) :
    tags ((Token.char c :: ts).drop op.width) = tags ts := by
  obtain ⟨-, htoken | ⟨rest, htoken, rfl⟩⟩ := operator_cases h
  · rw [Operator.width, htoken]
    rfl
  · rw [Operator.width, htoken]
    rfl

end Token

namespace Invocation
variable {σ β : Type} {R : Invocation σ → β → Prop}

/-- Whether a walk over a stack of invocations comes by one thing for each invocation. -/
inductive Walks (R : Invocation σ → β → Prop) : List (Invocation σ) → List β → Prop
  | nil : Walks R [] []
  | cons {i is b bs} (here : R i b) (later : Walks R (i.nested ++ is) bs) :
      Walks R (i :: is) (b :: bs)

namespace Walks
variable {is js : List (Invocation σ)} {bs cs : List β}

theorem append (h : Walks R is bs) (h' : Walks R js cs) : Walks R (is ++ js) (bs ++ cs) := by
  induction h with
  | nil => exact h'
  | cons here _ ih =>
    refine .cons here ?_
    rwa [List.append_assoc] at ih

theorem singleton {i : Invocation σ} {b : β} (here : R i b) (nested : Walks R i.nested bs) :
    Walks R [i] (b :: bs) :=
  .cons here (by rwa [List.append_nil])

theorem forall₂_unstack (h : Walks R is bs) {steps : Nat} (hsteps : forestSize is ≤ steps) :
    List.Forall₂ R (unstack steps is) bs := by
  induction h generalizing steps with
  | nil => cases steps <;> exact .nil
  | @cons i is b bs here _ ih =>
    cases steps with
    | zero =>
      rw [forestSize, size_eq] at hsteps
      omega
    | succ steps => exact .cons here (ih (forestSize_step hsteps))

end Walks

/-- Whether an invocation is of a tag, in a program of some depth. -/
structure IsOf (v : Vocabulary σ) (depth : Nat) (i : Invocation σ) (t : Nat × Tag) : Prop where
  resolved : v.resolve t.2.name = some i.native
  heading : i.heading = t.2.heading i.native i.heading.index depth

end Invocation

namespace Program
variable {σ : Type} {v : Vocabulary σ} {depth : Nat}

/-- Whether a walk over some invocations goes along the tags up to some later tokens. -/
def ReadsTags (v : Vocabulary σ) (depth : Nat) (is : List (Invocation σ)) (ts ts' : List Token) :
    Prop :=
  ∃ read, Token.tags ts = read ++ Token.tags ts' ∧ Invocation.Walks (Invocation.IsOf v depth) is read

namespace ReadsTags
variable {is js : List (Invocation σ)} {ts ts' ts'' : List Token}

theorem nil (h : Token.tags ts = Token.tags ts') : ReadsTags v depth [] ts ts' := ⟨[], h, .nil⟩

theorem append (h : ReadsTags v depth is ts ts') (h' : ReadsTags v depth js ts' ts'') :
    ReadsTags v depth (is ++ js) ts ts'' := by
  obtain ⟨read, htags, hwalks⟩ := h
  obtain ⟨more, htags', hwalks'⟩ := h'
  refine ⟨read ++ more, ?_, hwalks.append hwalks'⟩
  rw [htags, htags', List.append_assoc]

theorem of_tags_eq (h : ReadsTags v depth is ts' ts'') (htags : Token.tags ts = Token.tags ts') :
    ReadsTags v depth is ts ts'' := by
  obtain ⟨read, hread, hwalks⟩ := h
  exact ⟨read, htags.trans hread, hwalks⟩

end ReadsTags

mutual

theorem ReadsInvocation.readsTags {tag : Tag} {c c' : Cursor} {i : Invocation σ}
    (h : ReadsInvocation v depth tag c i c') (start : Nat) :
    ReadsTags v depth [i] (.tag start tag :: c.tokens) c'.tokens := by
  match h with
  | .mk hresolved ha =>
    obtain ⟨read, htags, hwalks⟩ := ha.readsTags
    refine ⟨(start, tag) :: read, congrArg ((start, tag) :: ·) htags, ?_⟩
    exact .singleton ⟨hresolved, rfl⟩ hwalks

theorem ReadsArguments.readsTags {args : Option ArgumentSchema} {c c' : Cursor}
    {fields : Option (List (Field (Invocation σ)))} (h : ReadsArguments v depth args c fields c') :
    ReadsTags v depth ((fields.getD []).flatMap Field.invocations) c.tokens c'.tokens := by
  match h with
  | .noSchema => exact .nil rfl
  | .omitted _ _ => exact .nil rfl
  | .empty _ => exact .nil rfl
  | .listed _ hf => exact hf.readsTags.of_tags_eq rfl

theorem ReadsFields.readsTags {spec : FieldSpec} {specs : List FieldSpec} {c c' : Cursor}
    {fields : List (Field (Invocation σ))} (h : ReadsFields v depth spec specs c fields c') :
    ReadsTags v depth (fields.flatMap Field.invocations) c.tokens c'.tokens := by
  match h with
  | .last hf =>
    obtain ⟨js, hjs, htags⟩ := hf.readsTags
    rw [Draft.invocations_field_empty, List.nil_append] at hjs
    rw [List.flatMap_singleton, hjs]
    exact htags
  | .again _ hf hfs =>
    obtain ⟨js, hjs, htags⟩ := hf.readsTags
    rw [Draft.invocations_field_empty, List.nil_append] at hjs
    rw [List.flatMap_cons, hjs]
    exact htags.append hfs.readsTags
  | .next _ hf hfs =>
    obtain ⟨js, hjs, htags⟩ := hf.readsTags
    rw [Draft.invocations_field_empty, List.nil_append] at hjs
    rw [List.flatMap_cons, hjs]
    exact htags.append hfs.readsTags

/-- What is read of an argument comes behind what is in the draft already. -/
theorem ReadsField.readsTags {condition : Bool} {draft : Draft σ}
    {before : Option (Operator × Draft σ)} {c c' : Cursor} {field : Field (Invocation σ)}
    {closed : Bool} (h : ReadsField v depth condition draft before c field closed c') :
    ∃ js, field.invocations = (draft.field condition before).invocations ++ js ∧
      ReadsTags v depth js c.tokens c'.tokens := by
  match h with
  | .close _ => exact ⟨[], (List.append_nil _).symm, .nil rfl⟩
  | .escape h =>
    obtain ⟨js, hjs, htags⟩ := h.readsTags
    rw [Draft.invocations_field_char] at hjs
    exact ⟨js, hjs, htags.of_tags_eq rfl⟩
  | .tag hi h =>
    obtain ⟨js, hjs, htags⟩ := h.readsTags
    rw [Draft.invocations_field_invoke, List.append_assoc] at hjs
    exact ⟨_, hjs, (hi.readsTags _).append htags⟩
  | .operator _ hop h =>
    obtain ⟨js, hjs, htags⟩ := h.readsTags
    unfold Token.operator? at hop
    split at hop
    · rename_i hsplit
      rw [Bool.and_eq_true, Option.isNone_iff_eq_none] at hsplit
      obtain ⟨rfl, rfl⟩ := hsplit
      rw [Draft.invocations_field_operator] at hjs
      exact ⟨js, hjs, htags.of_tags_eq (Token.tags_drop_operator hop).symm⟩
    · cases hop
  | .char _ _ h =>
    obtain ⟨js, hjs, htags⟩ := h.readsTags
    rw [Draft.invocations_field_char] at hjs
    exact ⟨js, hjs, htags.of_tags_eq rfl⟩

end

theorem ReadsText.readsTags {draft result : Draft σ} {c : Cursor}
    (h : ReadsText v depth draft c result) :
    ∃ js, result.invocations = draft.invocations ++ js ∧ ReadsTags v depth js c.tokens [] := by
  induction h with
  | done => exact ⟨[], (List.append_nil _).symm, .nil rfl⟩
  | tag hi _ ih =>
    obtain ⟨js, hjs, htags⟩ := ih
    exact ⟨_, hjs.trans (List.append_assoc _ [_] js), (hi.readsTags _).append htags⟩
  | undone _ _ ih | kept _ _ ih | char _ ih =>
    obtain ⟨js, hjs, htags⟩ := ih
    exact ⟨js, hjs, htags.of_tags_eq rfl⟩

/-- **The walk of a compiled program goes along the tags of its source**: each invocation is of
the tag that stands at its place among those that are read. -/
theorem walk_of_compileAt {source : String} {path : Option String} {p : Program σ}
    (h : compileAt v source path depth = .ok p) :
    List.Forall₂ (Invocation.IsOf v depth) p.walk
      (Token.tags (Token.scan v.words source.toList)) := by
  obtain ⟨draft, hread, rfl⟩ := compileAt_eq_ok_iff.1 h
  obtain ⟨js, hjs, read, htags, hwalks⟩ := hread.readsTags
  have hinvocations : (ofDraft source path depth draft).invocations = js := hjs
  have hread : Token.tags (Token.scan v.words source.toList) = read :=
    htags.trans (List.append_nil read)
  rw [hread, walk, hinvocations]
  exact hwalks.forall₂_unstack (Nat.le_refl _)

/-- Whether an invocation of a program is that of the tag which starts at a character of the
source. -/
def StartsAt (v : Vocabulary σ) (p : Program σ) (i : Invocation σ) (start : Nat) : Prop :=
  ∃ (k : Nat) (t : Tag), p.walk[k]? = some i ∧
    (Token.tags (Token.scan v.words p.source.toList))[k]? = some (start, t)

/-- **An invocation starts wherever a tag is read**, and nowhere else. -/
theorem exists_startsAt_iff {source : String} {path : Option String} {p : Program σ}
    (h : compileAt v source path depth = .ok p) {start : Nat} :
    (∃ i, p.StartsAt v i start) ↔ ∃ t, .tag start t ∈ Token.scan v.words source.toList := by
  have hwalk := walk_of_compileAt h
  obtain ⟨rfl, -⟩ := template_of_compileAt h
  constructor
  · rintro ⟨i, k, t, -, htag⟩
    exact ⟨t, Token.mem_tags.1 (List.mem_of_getElem? htag)⟩
  · rintro ⟨t, ht⟩
    obtain ⟨k, hk⟩ := List.mem_iff_getElem?.1 (Token.mem_tags.2 ht)
    have hlt : k < p.walk.length := by
      rw [hwalk.length_eq]
      exact (List.getElem?_eq_some_iff.1 hk).1
    exact ⟨_, k, t, List.getElem?_eq_getElem hlt, hk⟩

end Program

end TagTemplate
