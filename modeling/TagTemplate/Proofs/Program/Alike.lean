import TagTemplate.Proofs.Program.Faults

/-! Tokens that are read alike.

Two tokens are `Alike` if they are the same, or tags at the same place that are the same up to
their names, and those have one normal form. Lists of alike tokens are read to the same invocations
and drafts, and where the reading of one list gets stuck, that of the other does, with the same
problem. -/
namespace TagTemplate

/-! ### Tokens that are alike -/

/-- Whether two tags are the same, up to their names, which have one normal form. -/
structure Tag.Alike (t t' : Tag) : Prop where
  negated : t.negated = t'.negated
  silent : t.silent = t'.silent
  count : t.count = t'.count
  normal : normalise t.name = normalise t'.name

/-- What is known of the invocations of alike tags is the same. -/
theorem Tag.Alike.heading {σ : Type} {t t' : Tag} (h : t.Alike t') (native : Native σ)
    (index depth : Nat) : t.heading native index depth = t'.heading native index depth := by
  rw [Tag.heading, h.negated, h.silent, h.count, Tag.heading]

/-- Whether two tokens are the same, or alike tags that start at the same place. -/
inductive Token.Alike : Token → Token → Prop
  | same (t : Token) : Alike t t
  | tag {start : Nat} {t t' : Tag} (h : t.Alike t') : Alike (.tag start t) (.tag start t')

namespace Token

theorem Alike.lead {t t' : Token} (h : Alike t t') : t.lead = t'.lead := by
  cases h <;> rfl

theorem Alike.marksTag {t t' : Token} (h : Alike t t') : t.marksTag = t'.marksTag := by
  cases h <;> rfl

/-- What is alike to a tag is an alike tag at the same place. -/
theorem Alike.exists_tag {start : Nat} {tag : Tag} {t : Token} (h : Alike (.tag start tag) t) :
    ∃ tag', tag.Alike tag' ∧ t = .tag start tag' := by
  cases h with
  | same => exact ⟨tag, ⟨rfl, rfl, rfl, rfl⟩, rfl⟩
  | tag h => exact ⟨_, h, rfl⟩

/-- What is no tag is alike only to itself. -/
theorem Alike.eq {t t' : Token} (h : Alike t t') (plain : t.tag? = none) : t = t' := by
  cases h with
  | same => rfl
  | tag => cases plain

theorem Alike.symm {t t' : Token} (h : Alike t t') : Alike t' t := by
  cases h with
  | same => exact .same t
  | tag h => exact .tag ⟨h.negated.symm, h.silent.symm, h.count.symm, h.normal.symm⟩

theorem any_marksTag_of_alike {ts ts' : List Token} (h : List.Forall₂ Token.Alike ts ts') :
    ts.any marksTag = ts'.any marksTag := by
  induction h with
  | nil => rfl
  | cons hone _ ih => rw [List.any_cons, List.any_cons, hone.marksTag, ih]

theorem map_lead_of_alike {ts ts' : List Token} (h : List.Forall₂ Token.Alike ts ts') :
    ts.map Token.lead = ts'.map Token.lead := by
  induction h with
  | nil => rfl
  | cons hone _ ih => rw [List.map_cons, List.map_cons, hone.lead, ih]

theorem operator?_of_alike {α : Type} {condition : Bool} {before : Option α} {ts ts' : List Token}
    (h : List.Forall₂ Token.Alike ts ts') :
    operator? condition before ts = operator? condition before ts' := by
  rw [operator?, List.map_take, map_lead_of_alike h, ← List.map_take, operator?]

/-- A list begins with a character where one alike does. -/
theorem head?_of_alike {ts ts' : List Token} {c : Char} (h : List.Forall₂ Token.Alike ts ts') :
    ts.head? = some (.char c) ↔ ts'.head? = some (.char c) := by
  cases h with
  | nil => rfl
  | cons hone _ =>
    rw [List.head?_cons, List.head?_cons]
    constructor <;> rintro ⟨⟩
    · exact congrArg some (hone.eq rfl).symm
    · exact congrArg some (hone.symm.eq rfl).symm

end Token

theorem Tag.Alike.resolve {σ : Type} {v : Vocabulary σ} {t t' : Tag} (h : t.Alike t') :
    v.resolve t.name = v.resolve t'.name := by
  rw [Vocabulary.resolve, h.normal, Vocabulary.resolve]

/-! ### Reading -/

namespace Program
variable {σ : Type} {v : Vocabulary σ} {depth : Nat}

open Token

mutual

theorem ReadsInvocation.alike {tag tag' : Tag} {c c' : Cursor} {i : Invocation σ}
    (h : ReadsInvocation v depth tag c i c') (htag : tag.Alike tag') {ts : List Token}
    (hts : List.Forall₂ Token.Alike c.tokens ts) :
    ∃ ts', List.Forall₂ Token.Alike c'.tokens ts' ∧
      ReadsInvocation v depth tag' ⟨ts, c.next⟩ i ⟨ts', c'.next⟩ := by
  match h with
  | .mk resolved arguments =>
    obtain ⟨ts', hts', arguments⟩ := arguments.alike hts
    rw [htag.resolve] at resolved
    rw [htag.heading]
    have one := ReadsInvocation.mk resolved arguments
    exact ⟨ts', hts', one⟩

theorem ReadsArguments.alike {args : Option ArgumentSchema} {c c' : Cursor}
    {fields : Option (List (Field (Invocation σ)))} (h : ReadsArguments v depth args c fields c')
    {ts : List Token} (hts : List.Forall₂ Token.Alike c.tokens ts) :
    ∃ ts', List.Forall₂ Token.Alike c'.tokens ts' ∧
      ReadsArguments v depth args ⟨ts, c.next⟩ fields ⟨ts', c'.next⟩ := by
  match h with
  | .noSchema => exact ⟨ts, hts, .noSchema⟩
  | .omitted optional closed =>
    exact ⟨ts, hts, .omitted optional fun hopen => closed ((head?_of_alike hts).2 hopen)⟩
  | .empty fieldless =>
    cases hts with
    | cons hopen hts =>
      cases hts with
      | cons hclose hts =>
        rw [← hopen.eq rfl, ← hclose.eq rfl]
        exact ⟨_, hts, .empty fieldless⟩
  | .listed declared list =>
    cases hts with
    | cons hopen hts =>
      obtain ⟨ts', hts', list⟩ := list.alike hts
      rw [← hopen.eq rfl]
      exact ⟨ts', hts', .listed declared list⟩

theorem ReadsFields.alike {spec : FieldSpec} {specs : List FieldSpec} {c c' : Cursor}
    {fields : List (Field (Invocation σ))} (h : ReadsFields v depth spec specs c fields c')
    {ts : List Token} (hts : List.Forall₂ Token.Alike c.tokens ts) :
    ∃ ts', List.Forall₂ Token.Alike c'.tokens ts' ∧
      ReadsFields v depth spec specs ⟨ts, c.next⟩ fields ⟨ts', c'.next⟩ := by
  match h with
  | .last one =>
    obtain ⟨ts', hts', one⟩ := one.alike hts
    exact ⟨ts', hts', .last one⟩
  | .again rest one more =>
    obtain ⟨ts', hts', one⟩ := one.alike hts
    obtain ⟨ts'', hts'', more⟩ := more.alike hts'
    exact ⟨ts'', hts'', .again rest one more⟩
  | .next single one more =>
    obtain ⟨ts', hts', one⟩ := one.alike hts
    obtain ⟨ts'', hts'', more⟩ := more.alike hts'
    exact ⟨ts'', hts'', .next single one more⟩

theorem ReadsField.alike {condition : Bool} {draft : Draft σ}
    {before : Option (Operator × Draft σ)} {c c' : Cursor} {field : Field (Invocation σ)}
    {closed : Bool} (h : ReadsField v depth condition draft before c field closed c')
    {ts : List Token} (hts : List.Forall₂ Token.Alike c.tokens ts) :
    ∃ ts', List.Forall₂ Token.Alike c'.tokens ts' ∧
      ReadsField v depth condition draft before ⟨ts, c.next⟩ field closed ⟨ts', c'.next⟩ := by
  match h with
  | .close ends =>
    cases hts with
    | cons hone hts =>
      rw [← hone.eq rfl]
      exact ⟨_, hts, .close ends⟩
  | .escape more =>
    cases hts with
    | cons hone hts =>
      obtain ⟨ts', hts', more⟩ := more.alike hts
      rw [← hone.eq rfl]
      exact ⟨ts', hts', .escape more⟩
  | .tag one more =>
    cases hts with
    | cons hone hts =>
      obtain ⟨tag', htag, rfl⟩ := hone.exists_tag
      obtain ⟨ts', hts', one⟩ := one.alike htag hts
      obtain ⟨ts'', hts'', more⟩ := more.alike hts'
      exact ⟨ts'', hts'', .tag one more⟩
  | .operator goesOn found more =>
    obtain ⟨ts', hts', more⟩ := more.alike (List.forall₂_drop _ hts)
    rw [operator?_of_alike hts] at found
    cases hts with
    | cons hone hts =>
      rw [← hone.eq rfl] at found more ⊢
      exact ⟨ts', hts', .operator goesOn found more⟩
  | .char goesOn found more =>
    rw [operator?_of_alike hts] at found
    cases hts with
    | cons hone hts =>
      obtain ⟨ts', hts', more⟩ := more.alike hts
      rw [← hone.eq rfl] at found ⊢
      exact ⟨ts', hts', .char goesOn found more⟩

end

theorem ReadsText.alike {draft result : Draft σ} {c : Cursor} (h : ReadsText v depth draft c result)
    {ts : List Token} (hts : List.Forall₂ Token.Alike c.tokens ts) :
    ReadsText v depth draft ⟨ts, c.next⟩ result := by
  induction h generalizing ts with
  | done =>
    cases hts
    exact .done
  | tag one _ ih =>
    cases hts with
    | cons hone hts =>
      obtain ⟨tag', htag, rfl⟩ := hone.exists_tag
      obtain ⟨ts', hts', one⟩ := one.alike htag hts
      exact .tag one (ih hts')
  | undone before _ ih =>
    cases hts with
    | cons hone hts =>
      rw [← hone.eq rfl]
      rw [any_marksTag_of_alike hts] at before
      exact .undone before (ih hts)
  | kept after _ ih =>
    cases hts with
    | cons hone hts =>
      rw [← hone.eq rfl]
      rw [any_marksTag_of_alike hts] at after
      exact .kept after (ih hts)
  | char _ ih =>
    cases hts with
    | cons hone hts =>
      rw [← hone.eq rfl]
      exact .char (ih hts)

/-! ### Getting stuck -/

namespace Stage

/-- Whether two invocations with open lists differ at most in how their tags are written. -/
structure OpensAlike (o o' : Opening v) : Prop where
  start : o.start = o'.start
  native : o.native = o'.native
  schema : o.schema = o'.schema
  specs : o.specs = o'.specs

/-- Whether two stages differ at most in how the names of tags are written. -/
structure Alike (s s' : Stage v) : Prop where
  openings : List.Forall₂ OpensAlike s.openings s'.openings
  tokens : List.Forall₂ Token.Alike s.tokens s'.tokens

theorem TakesText.alike {os os' : List (Opening v)} (room : TakesText os)
    (h : List.Forall₂ OpensAlike os os') : TakesText os' := by
  cases h with
  | nil => exact takesText_nil
  | cons hone _ =>
    rintro o ⟨⟩
    rw [← hone.specs]
    exact room _ rfl

theorem Unlisted.alike {native : Native σ} {ts ts' : List Token} (h : Unlisted native ts)
    (hts : List.Forall₂ Token.Alike ts ts') : Unlisted native ts' := by
  rcases h with hnone | ⟨schema, declared, optional, hopen⟩
  · exact .inl hnone
  · exact .inr ⟨schema, declared, optional, fun h => hopen ((head?_of_alike hts).2 h)⟩

/-- **Alike stages go on to alike stages.** -/
theorem Goes.alike {s s' t : Stage v} (h : s.Goes s') (ht : s.Alike t) :
    ∃ t', t.Goes t' ∧ s'.Alike t' := by
  obtain ⟨os', ts'⟩ := t
  obtain ⟨hos, hts⟩ := ht
  cases h with
  | text room plain inner =>
    cases hts with
    | cons hone hts =>
      rw [← hone.eq plain]
      refine ⟨_, .text (room.alike hos) plain fun hne => inner fun hnil => hne ?_, hos, hts⟩
      subst hnil
      cases hos
      rfl
  | bare room resolved unlisted =>
    cases hts with
    | cons hone hts =>
      obtain ⟨tag', htag, rfl⟩ := hone.exists_tag
      rw [htag.resolve] at resolved
      exact ⟨_, .bare (room.alike hos) resolved (unlisted.alike hts), hos, hts⟩
  | opens room resolved declared =>
    cases hts with
    | cons hone hts =>
      cases hts with
      | cons hopen hts =>
        obtain ⟨tag', htag, rfl⟩ := hone.exists_tag
        rw [← hopen.eq rfl]
        rw [htag.resolve] at resolved
        exact ⟨_, .opens (room.alike hos) resolved declared, .cons ⟨rfl, rfl, rfl, rfl⟩ hos, hts⟩
  | again current rest =>
    cases hos with
    | cons ho hos =>
      cases hts with
      | cons hone hts =>
        rw [← hone.eq rfl]
        exact ⟨_, .again (ho.specs.symm.trans current) rest, .cons ho hos, hts⟩
  | next current single =>
    cases hos with
    | cons ho hos =>
      cases hts with
      | cons hone hts =>
        rw [← hone.eq rfl]
        exact ⟨_, .next (ho.specs.symm.trans current) single,
          .cons ⟨ho.start, ho.native, ho.schema, rfl⟩ hos, hts⟩
  | close =>
    cases hos with
    | cons ho hos =>
      cases hts with
      | cons hone hts =>
        rw [← hone.eq rfl]
        exact ⟨_, .close, hos, hts⟩

/-- Alike stages are stuck with one problem. -/
theorem Stuck.alike {s t : Stage v} {p : Problem} (h : s.Stuck p) (ht : s.Alike t) :
    t.Stuck p := by
  obtain ⟨os', ts'⟩ := t
  obtain ⟨hos, hts⟩ := ht
  cases h with
  | unregistered room unknown =>
    cases hts with
    | cons hone hts =>
      obtain ⟨tag', htag, rfl⟩ := hone.exists_tag
      rw [htag.resolve] at unknown
      rw [htag.normal]
      exact .unregistered (room.alike hos) unknown
  | missing room resolved declared brackets unlisted =>
    cases hts with
    | cons hone hts =>
      obtain ⟨tag', htag, rfl⟩ := hone.exists_tag
      rw [htag.resolve] at resolved
      exact .missing (room.alike hos) resolved declared brackets fun hopen =>
        unlisted ((head?_of_alike hts).2 hopen)
  | unclosed =>
    cases hos with
    | cons ho hos =>
      cases hts
      rw [ho.native, ho.start]
      exact .unclosed
  | filled empty goesOn =>
    cases hos with
    | cons ho hos =>
      cases hts with
      | cons hone hts =>
        rw [ho.native, ho.start]
        refine .filled (ho.specs.symm.trans empty) fun hclose => goesOn ?_
        subst hclose
        exact (hone.symm.eq rfl).symm
  | beyond current single =>
    cases hos with
    | cons ho hos =>
      cases hts with
      | cons hone hts =>
        rw [← hone.eq rfl, ho.native, ho.start, ho.schema]
        exact .beyond (ho.specs.symm.trans current) single

theorem Reaches.alike {s s' t : Stage v} (h : s.Reaches s') (ht : s.Alike t) :
    ∃ t', t.Reaches t' ∧ s'.Alike t' := by
  induction h with
  | refl => exact ⟨t, .refl, ht⟩
  | tail _ hgoes ih =>
    obtain ⟨t', hreaches, ht'⟩ := ih
    obtain ⟨t'', hgoes, ht''⟩ := hgoes.alike ht'
    exact ⟨t'', hreaches.tail hgoes, ht''⟩

/-- **Alike stages fail with one problem.** -/
theorem Fails.alike {s t : Stage v} {p : Problem} (h : s.Fails p) (ht : s.Alike t) : t.Fails p := by
  obtain ⟨s', hreaches, hstuck⟩ := h
  obtain ⟨t', hreaches, ht'⟩ := hreaches.alike ht
  exact ⟨t', hreaches, hstuck.alike ht'⟩

end Stage

end Program

end TagTemplate
