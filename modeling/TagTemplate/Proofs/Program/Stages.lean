import Mathlib.Logic.Relation
import TagTemplate.Proofs.Program.Registered
import TagTemplate.Proofs.Program.Tags

/-! Reading with open argument lists.

The reader of a template goes down into the argument list of an invocation and comes back when
the list is closed. A `Stage` keeps what the reader is inside of as a stack instead: the
invocations whose lists are open, the innermost first, and the tokens that are left. `Stage.Goes`
says how the reader gets from one stage to the next, and `Stage.Stuck` where it cannot go on, and
with what problem.

What the reader reads it reads stage by stage (`ReadsInvocation.reaches`), and a problem comes up
at a stage that is stuck with it (`readInvocation_fails`). Both together say when a template does
not compile: `compileAt_eq_error_iff`. -/
namespace TagTemplate

namespace Program
variable {σ : Type}

/-- An invocation whose argument list is open, with the tag that it was begun for. -/
structure Opening (v : Vocabulary σ) where
  /-- The number of the character at which the tag starts. -/
  start : Nat
  tag : Tag
  native : Native σ
  schema : ArgumentSchema
  /-- The spec of the argument that is read and those behind it; none where the list is to stay
  empty. -/
  specs : List FieldSpec
  resolved : v.resolve tag.name = some native
  declared : native.signature.args = some schema

/-- How far a template is read. -/
structure Stage (v : Vocabulary σ) where
  /-- The invocations whose argument lists are open, the innermost first. -/
  openings : List (Opening v)
  tokens : List Token

namespace Stage
variable {v : Vocabulary σ}

/-- Whether text may come next, and tags in it: at top level and in an argument. -/
def TakesText (openings : List (Opening v)) : Prop := ∀ o ∈ openings.head?, o.specs ≠ []

/-- Whether a native is called without an argument list where some tokens follow its tag. -/
def Unlisted (native : Native σ) (ts : List Token) : Prop :=
  native.signature.args = none ∨ ∃ schema, native.signature.args = some schema ∧
    schema.brackets = false ∧ ts.head? ≠ some (.char '[')

/-- One step of the reader. -/
inductive Goes : Stage v → Stage v → Prop
  /-- Text is passed; only at top level do separators and closing brackets belong to it. -/
  | text {os t ts} (room : TakesText os) (plain : t.tag? = none)
      (inner : os ≠ [] → t ≠ .char ';' ∧ t ≠ .char ']') : Goes ⟨os, t :: ts⟩ ⟨os, ts⟩
  /-- An invocation is begun that has no argument list. -/
  | bare {os start} {tag : Tag} {native ts} (room : TakesText os)
      (resolved : v.resolve tag.name = some native)
      (unlisted : Unlisted native ts) : Goes ⟨os, .tag start tag :: ts⟩ ⟨os, ts⟩
  /-- An invocation is begun, and its argument list. -/
  | opens {os start} {tag : Tag} {native schema ts} (room : TakesText os)
      (resolved : v.resolve tag.name = some native) (declared : native.signature.args = some schema) :
      Goes ⟨os, .tag start tag :: .char '[' :: ts⟩
        ⟨⟨start, tag, native, schema, schema.fields, resolved, declared⟩ :: os, ts⟩
  /-- An argument is ended under a spec that repeats. -/
  | again {o : Opening v} {os spec specs ts} (current : o.specs = spec :: specs) (rest : spec.rest = true) :
      Goes ⟨o :: os, .char ';' :: ts⟩ ⟨o :: os, ts⟩
  /-- An argument is ended, and the next spec is taken. -/
  | next {o : Opening v} {os spec spec' specs ts} (current : o.specs = spec :: spec' :: specs)
      (single : spec.rest = false) :
      Goes ⟨o :: os, .char ';' :: ts⟩ ⟨{ o with specs := spec' :: specs } :: os, ts⟩
  /-- The innermost argument list is closed. -/
  | close {o : Opening v} {os ts} : Goes ⟨o :: os, .char ']' :: ts⟩ ⟨os, ts⟩

/-- Whether the reader gets from one stage to another. -/
def Reaches : Stage v → Stage v → Prop := Relation.ReflTransGen Goes

/-- Whether the reader cannot go on, and what the problem is. -/
inductive Stuck : Stage v → Problem → Prop
  | unregistered {os start} {tag : Tag} {ts} (room : TakesText os) (unknown : v.resolve tag.name = none) :
      Stuck ⟨os, .tag start tag :: ts⟩ ⟨.unregistered, normalise tag.name, start⟩
  | missing {os start} {tag : Tag} {native schema ts} (room : TakesText os)
      (resolved : v.resolve tag.name = some native) (declared : native.signature.args = some schema)
      (brackets : schema.brackets = true) (unlisted : ts.head? ≠ some (.char '[')) :
      Stuck ⟨os, .tag start tag :: ts⟩ ⟨.missingBrackets, native.signature.name, start⟩
  /-- The text ends in an argument list. -/
  | unclosed {o : Opening v} {os} : Stuck ⟨o :: os, []⟩ ⟨.unclosed, o.native.signature.name, o.start⟩
  /-- Something stands in a list that is to stay empty. -/
  | filled {o : Opening v} {os t ts} (empty : o.specs = []) (goesOn : t ≠ .char ']') :
      Stuck ⟨o :: os, t :: ts⟩ ⟨.tooManyArguments 0, o.native.signature.name, o.start⟩
  /-- An argument is to follow, and no spec is left. -/
  | beyond {o : Opening v} {os spec ts} (current : o.specs = [spec]) (single : spec.rest = false) :
      Stuck ⟨o :: os, .char ';' :: ts⟩
        ⟨.tooManyArguments o.schema.fields.length, o.native.signature.name, o.start⟩

theorem takesText_nil : TakesText ([] : List (Opening v)) := nofun

theorem takesText_cons {o : Opening v} {os : List (Opening v)} {spec : FieldSpec}
    {specs : List FieldSpec} (h : o.specs = spec :: specs) : TakesText (o :: os) := by
  intro o' ho'
  cases ho'
  rw [h]
  exact List.cons_ne_nil _ _

/-- A character that ends no argument is passed. -/
theorem Goes.char {os : List (Opening v)} {c : Char} {ts : List Token} (room : TakesText os)
    (goesOn : c ≠ ';' ∧ c ≠ ']') : Goes ⟨os, .char c :: ts⟩ ⟨os, ts⟩ :=
  .text room rfl fun _ =>
    ⟨fun heq => goesOn.1 (Token.char.inj heq), fun heq => goesOn.2 (Token.char.inj heq)⟩

/-- Each step passes a token. -/
theorem Goes.suffix {s s' : Stage v} (h : s.Goes s') : s'.tokens <:+ s.tokens.tail := by
  cases h with
  | text | bare | again | next | close => exact List.suffix_rfl
  | opens => exact List.suffix_cons _ _

/-- Where no token is left there is no step. -/
theorem Goes.tokens_ne_nil {s s' : Stage v} (h : s.Goes s') : s.tokens ≠ [] := by
  cases h <;> exact List.cons_ne_nil _ _

theorem Reaches.suffix {s s' : Stage v} (h : s.Reaches s') : s'.tokens <:+ s.tokens := by
  induction h with
  | refl => exact List.suffix_rfl
  | tail _ hgoes ih => exact (hgoes.suffix.trans (List.tail_suffix _)).trans ih

/-- Where an argument list follows a tag, the tag is not read without it. -/
theorem not_unlisted {native : Native σ} {schema : ArgumentSchema} {ts : List Token}
    (declared : native.signature.args = some schema) :
    ¬ Unlisted native (.char '[' :: ts) := by
  rintro (hnone | ⟨_, -, -, hopen⟩)
  · rw [declared] at hnone
    cases hnone
  · exact hopen rfl

/-- **There is at most one step from a stage.** -/
theorem Goes.unique {s a b : Stage v} (ha : s.Goes a) (hb : s.Goes b) : a = b := by
  cases ha with
  | text _ plain inner =>
    cases hb with
    | text => rfl
    | bare | opens => cases plain
    | again | next => exact absurd rfl (inner (List.cons_ne_nil _ _)).1
    | close => exact absurd rfl (inner (List.cons_ne_nil _ _)).2
  | bare _ resolved unlisted =>
    cases hb with
    | text _ plain _ => cases plain
    | bare => rfl
    | opens _ resolved' declared =>
      cases resolved.symm.trans resolved'
      exact absurd unlisted (not_unlisted declared)
  | opens _ resolved declared =>
    cases hb with
    | text _ plain _ => cases plain
    | bare _ resolved' unlisted =>
      cases resolved.symm.trans resolved'
      exact absurd unlisted (not_unlisted declared)
    | opens _ resolved' declared' =>
      cases resolved.symm.trans resolved'
      cases declared.symm.trans declared'
      rfl
  | again current rest =>
    cases hb with
    | text _ _ inner => exact absurd rfl (inner (List.cons_ne_nil _ _)).1
    | again => rfl
    | next current' single =>
      cases current.symm.trans current'
      rw [rest] at single
      cases single
  | next current single =>
    cases hb with
    | text _ _ inner => exact absurd rfl (inner (List.cons_ne_nil _ _)).1
    | again current' rest =>
      cases current.symm.trans current'
      rw [rest] at single
      cases single
    | next current' _ =>
      cases current.symm.trans current'
      rfl
  | close =>
    cases hb with
    | text _ _ inner => exact absurd rfl (inner (List.cons_ne_nil _ _)).2
    | close => rfl

/-- The reader does not go on from where it is stuck. -/
theorem Stuck.not_goes {s s' : Stage v} {p : Problem} (h : s.Stuck p) : ¬ s.Goes s' := by
  intro hgoes
  cases h with
  | unregistered _ unknown =>
    cases hgoes with
    | text _ plain _ => cases plain
    | bare _ resolved _ => cases unknown.symm.trans resolved
    | opens _ resolved _ => cases unknown.symm.trans resolved
  | missing _ resolved declared brackets unlisted =>
    cases hgoes with
    | text _ plain _ => cases plain
    | opens => exact unlisted rfl
    | bare _ resolved' bare =>
      cases resolved.symm.trans resolved'
      rcases bare with hnone | ⟨_, declared', optional, -⟩
      · cases declared.symm.trans hnone
      · cases declared.symm.trans declared'
        rw [brackets] at optional
        cases optional
  | unclosed => cases hgoes
  | filled empty goesOn =>
    cases hgoes with
    | text room _ _ => exact room _ rfl empty
    | bare room _ _ => exact room _ rfl empty
    | opens room _ _ => exact room _ rfl empty
    | again current _ => cases empty.symm.trans current
    | next current _ => cases empty.symm.trans current
    | close => exact goesOn rfl
  | beyond current single =>
    cases hgoes with
    | text _ _ inner => exact (inner (List.cons_ne_nil _ _)).1 rfl
    | again current' rest =>
      cases current.symm.trans current'
      rw [rest] at single
      cases single
    | next current' _ => cases current.symm.trans current'

/-- Where the reader is stuck there is one problem. -/
theorem Stuck.unique {s : Stage v} {p q : Problem} (hp : s.Stuck p) (hq : s.Stuck q) : p = q := by
  cases hp with
  | unregistered room unknown =>
    cases hq with
    | unregistered => rfl
    | missing _ resolved _ _ _ => cases unknown.symm.trans resolved
    | filled empty _ => exact absurd empty (room _ rfl)
  | missing room resolved declared _ _ =>
    cases hq with
    | unregistered _ unknown => cases unknown.symm.trans resolved
    | missing _ resolved' _ _ _ =>
      cases resolved.symm.trans resolved'
      rfl
    | filled empty _ => exact absurd empty (room _ rfl)
  | unclosed =>
    cases hq with
    | unclosed => rfl
  | filled empty _ =>
    cases hq with
    | unregistered room _ => exact absurd empty (room _ rfl)
    | missing room _ _ _ _ => exact absurd empty (room _ rfl)
    | filled => rfl
    | beyond current _ => cases empty.symm.trans current
  | beyond current _ =>
    cases hq with
    | filled empty _ => cases empty.symm.trans current
    | beyond => rfl

/-- From a stage the reader comes to one end. -/
theorem Reaches.unique {s a b : Stage v} (ha : s.Reaches a) (hb : s.Reaches b)
    (hend : ∀ s', ¬ a.Goes s') (hend' : ∀ s', ¬ b.Goes s') : a = b := by
  have hstays {a b : Stage v} (h : a.Reaches b) (hend : ∀ s', ¬ a.Goes s') : a = b := by
    rcases h.cases_head with heq | ⟨s', hgoes, -⟩
    · exact heq
    · exact absurd hgoes (hend s')
  have hunique : Relator.RightUnique (Goes (v := v)) := fun _ _ _ => Goes.unique
  rcases Relation.ReflTransGen.total_of_right_unique hunique ha hb with h | h
  · exact hstays h hend
  · exact (hstays h hend').symm

end Stage

/-! ### What is read is read stage by stage -/

section
variable {v : Vocabulary σ} {depth : Nat}

open Stage

/-- An operator is text: the reader passes over its tokens. -/
theorem reaches_drop_operator {os : List (Opening v)} (room : TakesText os) {c : Char}
    {ts : List Token} {op : Operator} (goesOn : c ≠ ';' ∧ c ≠ ']')
    (h : Operator.scan (((Token.char c :: ts).take 2).map Token.lead) = some op) :
    Reaches ⟨os, .char c :: ts⟩ ⟨os, (Token.char c :: ts).drop op.width⟩ := by
  have hfirst : Goes ⟨os, .char c :: ts⟩ ⟨os, ts⟩ := .char room goesOn
  obtain ⟨-, htoken | ⟨rest, htoken, rfl⟩⟩ := Token.operator_cases h
  · rw [Operator.width, htoken]
    exact .single hfirst
  · rw [Operator.width, htoken]
    exact (Relation.ReflTransGen.single hfirst).tail (.char room (by decide))

mutual

theorem ReadsInvocation.reaches {tag : Tag} {c c' : Cursor} {i : Invocation σ}
    (h : ReadsInvocation v depth tag c i c') {os : List (Opening v)} (room : TakesText os)
    (start : Nat) : Reaches ⟨os, .tag start tag :: c.tokens⟩ ⟨os, c'.tokens⟩ := by
  match h with
  | .mk resolved arguments => exact arguments.reaches room start resolved rfl

theorem ReadsArguments.reaches {args : Option ArgumentSchema} {c c' : Cursor}
    {fields : Option (List (Field (Invocation σ)))} (h : ReadsArguments v depth args c fields c')
    {os : List (Opening v)} (room : TakesText os) (start : Nat) {tag : Tag} {native : Native σ}
    (resolved : v.resolve tag.name = some native) (declared : native.signature.args = args) :
    Reaches ⟨os, .tag start tag :: c.tokens⟩ ⟨os, c'.tokens⟩ := by
  match h with
  | .noSchema => exact .single (.bare room resolved (.inl declared))
  | .omitted optional closed =>
    exact .single (.bare room resolved (.inr ⟨_, declared, optional, closed⟩))
  | .empty _ => exact (Relation.ReflTransGen.single (.opens room resolved declared)).tail .close
  | .listed hfields list =>
    exact .head (.opens room resolved declared) (list.reaches hfields os)

theorem ReadsFields.reaches {spec : FieldSpec} {specs : List FieldSpec} {c c' : Cursor}
    {fields : List (Field (Invocation σ))} (h : ReadsFields v depth spec specs c fields c')
    {o : Opening v} (current : o.specs = spec :: specs) (os : List (Opening v)) :
    Reaches ⟨o :: os, c.tokens⟩ ⟨os, c'.tokens⟩ := by
  have room : TakesText (o :: os) := takesText_cons current
  match h with
  | .last one => exact (one.reaches room).tail .close
  | .again rest one more =>
    exact ((one.reaches room).tail (.again current rest)).trans (more.reaches current os)
  | .next single one more =>
    exact ((one.reaches room).tail (.next current single)).trans (more.reaches rfl os)

theorem ReadsField.reaches {condition : Bool} {draft : Draft σ}
    {before : Option (Operator × Draft σ)} {c c' : Cursor} {field : Field (Invocation σ)}
    {closed : Bool} (h : ReadsField v depth condition draft before c field closed c')
    {os : List (Opening v)} (room : TakesText os) :
    Reaches ⟨os, c.tokens⟩ ⟨os, .char (if closed then ']' else ';') :: c'.tokens⟩ := by
  match h with
  | .close ends =>
    rcases ends with rfl | rfl
    · exact .refl
    · exact .refl
  | .escape more => exact .head (.text room rfl fun _ => ⟨nofun, nofun⟩) (more.reaches room)
  | .tag one more => exact (one.reaches room _).trans (more.reaches room)
  | .operator goesOn found more =>
    unfold Token.operator? at found
    split at found
    · exact (reaches_drop_operator room goesOn found).trans (more.reaches room)
    · cases found
  | .char goesOn _ more => exact .head (.char room goesOn) (more.reaches room)

end

theorem ReadsText.reaches {draft result : Draft σ} {c : Cursor}
    (h : ReadsText v depth draft c result) :
    Reaches (v := v) ⟨[], c.tokens⟩ ⟨[], []⟩ := by
  induction h with
  | done => exact .refl
  | tag one _ ih => exact (one.reaches takesText_nil _).trans ih
  | undone _ _ ih | kept _ _ ih | char _ ih =>
    exact .head (.text takesText_nil rfl fun hne => absurd rfl hne) ih

/-! ### What is not read is stuck -/

/-- Whether the reader comes from a stage to one that is stuck with a problem. -/
def Stage.Fails (s : Stage v) (p : Problem) : Prop := ∃ s', s.Reaches s' ∧ s'.Stuck p

theorem Stage.Fails.of_reaches {s s' : Stage v} {p : Problem} (h : s'.Fails p)
    (hs : s.Reaches s') : s.Fails p := by
  obtain ⟨s'', hs', hstuck⟩ := h
  exact ⟨s'', hs.trans hs', hstuck⟩

theorem Stage.Stuck.fails {s : Stage v} {p : Problem} (h : s.Stuck p) : s.Fails p :=
  ⟨s, .refl, h⟩

mutual

theorem readInvocation_fails {fuel start : Nat} {tag : Tag} {c : Cursor} {p : Problem}
    (hf : 2 * c.tokens.length + 2 ≤ fuel)
    (h : readInvocation v depth fuel start tag c = .error p) {os : List (Opening v)}
    (room : TakesText os) : Stage.Fails ⟨os, .tag start tag :: c.tokens⟩ p := by
  match fuel with
  | fuel + 1 =>
    rw [readInvocation] at h
    split at h
    · rename_i unknown
      cases h
      exact (Stuck.unregistered room unknown).fails
    · rename_i native resolved
      rcases Except.bind_eq_error h with h | ⟨⟨fields, c'⟩, -, h⟩
      · exact readArguments_fails (by omega) h room resolved rfl
      · cases h

theorem readArguments_fails {fuel start : Nat} {args : Option ArgumentSchema} {c : Cursor}
    {p : Problem} {native : Native σ} (hf : 2 * c.tokens.length + 1 ≤ fuel)
    (h : readArguments v depth fuel start native.signature.name args c = .error p)
    {os : List (Opening v)} (room : TakesText os) {tag : Tag}
    (resolved : v.resolve tag.name = some native) (declared : native.signature.args = args) :
    Stage.Fails ⟨os, .tag start tag :: c.tokens⟩ p := by
  match fuel, args with
  | fuel + 1, none =>
    rw [readArguments] at h
    cases h
  | fuel + 1, some schema =>
    obtain ⟨ts, n⟩ := c
    simp only [readArguments] at h
    split at h
    · rename_i ts
      let o : Opening v := ⟨start, tag, native, schema, schema.fields, resolved, declared⟩
      suffices hlist : Stage.Fails ⟨o :: os, ts⟩ p from
        hlist.of_reaches (.single (.opens room resolved declared))
      simp only [List.length_cons] at hf
      split at h
      · cases h
        exact (Stuck.unclosed (o := o)).fails
      · cases h
      · rename_i ts _ _ hfields hne hclose
        cases h
        cases ts with
        | nil => exact (hne rfl).elim
        | cons t ts =>
          refine (Stuck.filled (o := o) hfields ?_).fails
          rintro rfl
          exact hclose ts rfl
      · rename_i spec specs hfields
        rcases Except.bind_eq_error h with h | ⟨⟨fields, c'⟩, -, h⟩
        · exact readFields_fails (o := o) (by dsimp only; omega) h hfields os
        · cases h
    · rename_i hopen
      split at h
      · rename_i hbrackets
        cases h
        refine (Stuck.missing room resolved declared hbrackets fun hhead => ?_).fails
        obtain ⟨ts', rfl⟩ := List.head?_eq_some_iff.1 hhead
        exact hopen ts' rfl
      · cases h

theorem readFields_fails {fuel : Nat} {spec : FieldSpec} {specs : List FieldSpec} {c : Cursor}
    {p : Problem} {o : Opening v} (hf : 2 * c.tokens.length + 2 ≤ fuel)
    (h : readFields v depth fuel o.start o.native.signature.name o.schema.fields.length spec specs c
      = .error p) (current : o.specs = spec :: specs) (os : List (Opening v)) :
    Stage.Fails ⟨o :: os, c.tokens⟩ p := by
  have room : TakesText (o :: os) := takesText_cons current
  match fuel with
  | fuel + 1 =>
    rw [readFields] at h
    rcases Except.bind_eq_error h with h | ⟨⟨field, closed, c'⟩, hone, h⟩
    · exact readField_fails (by omega) h room
    · have one := ReadsField.of_read hone
      have hlt := one.length_lt
      have hreaches := one.reaches room
      dsimp only at h
      split at h
      · cases h
      · rename_i hclosed
        rw [if_neg hclosed] at hreaches
        split at h
        · rename_i rest
          rcases Except.bind_eq_error h with h | ⟨⟨fields, c''⟩, -, h⟩
          · have hmore := readFields_fails (by omega) h current os
            exact hmore.of_reaches (hreaches.tail (.again current rest))
          · cases h
        · rename_i hsingle
          have single : spec.rest = false := by simpa using hsingle
          split at h
          · cases h
            exact (Stuck.beyond current single).fails.of_reaches hreaches
          · rename_i spec' specs _
            rcases Except.bind_eq_error h with h | ⟨⟨fields, c''⟩, -, h⟩
            · have hmore := readFields_fails (o := { o with specs := spec' :: specs })
                (by omega) h rfl os
              exact hmore.of_reaches (hreaches.tail (.next current single))
            · cases h

theorem readField_fails {fuel : Nat} {condition : Bool} {draft : Draft σ}
    {before : Option (Operator × Draft σ)} {c : Cursor} {p : Problem} {o : Opening v}
    (hf : 2 * c.tokens.length + 1 ≤ fuel)
    (h : readField v depth fuel o.start o.native.signature.name condition draft before c = .error p)
    {os : List (Opening v)} (room : TakesText (o :: os)) : Stage.Fails ⟨o :: os, c.tokens⟩ p := by
  match fuel with
  | fuel + 1 =>
    obtain ⟨ts, n⟩ := c
    simp only [readField] at h
    split at h
    · cases h
      exact Stuck.unclosed.fails
    · simp only [List.length_cons] at hf
      have hmore := readField_fails (by dsimp only; omega) h room
      exact hmore.of_reaches (.single (.text room rfl fun _ => ⟨nofun, nofun⟩))
    · simp only [List.length_cons] at hf
      rcases Except.bind_eq_error h with h | ⟨⟨i, c'⟩, hone, h⟩
      · exact readInvocation_fails (by dsimp only; omega) h room
      · have one := ReadsInvocation.of_read hone
        have hle := one.length_le
        dsimp only at hle
        exact (readField_fails (by dsimp only; omega) h room).of_reaches (one.reaches room _)
    · rename_i c ts
      simp only [List.length_cons] at hf
      split at h
      · cases h
      · rename_i hends
        have goesOn : c ≠ ';' ∧ c ≠ ']' := by simpa using hends
        split at h
        · rename_i op found
          have hwidth := Token.width_pos_of_operator? found
          have hmore := readField_fails (by simp; omega) h room
          split at found
          · exact hmore.of_reaches (reaches_drop_operator room goesOn found)
          · cases found
        · have hmore := readField_fails (by dsimp only; omega) h room
          exact hmore.of_reaches (.single (.char room goesOn))

end

theorem readText_fails {fuel : Nat} {draft : Draft σ} {c : Cursor} {p : Problem}
    (hf : 2 * c.tokens.length + 2 ≤ fuel) (h : readText v depth fuel draft c = .error p) :
    Stage.Fails (v := v) ⟨[], c.tokens⟩ p := by
  induction fuel generalizing draft c with
  | zero => cases h
  | succ fuel ih =>
    obtain ⟨ts, n⟩ := c
    have hpass {t : Token} {ts : List Token} (plain : t.tag? = none) :
        Reaches (v := v) ⟨[], t :: ts⟩ ⟨[], ts⟩ :=
      .single (.text takesText_nil plain fun hne => absurd rfl hne)
    simp only [readText] at h
    split at h
    · cases h
    · simp only [List.length_cons] at hf
      rcases Except.bind_eq_error h with h | ⟨⟨i, c'⟩, hone, h⟩
      · exact readInvocation_fails (by dsimp only; omega) h takesText_nil
      · have one := ReadsInvocation.of_read hone
        have hle := one.length_le
        dsimp only at hle
        exact (ih (by dsimp only; omega) h).of_reaches (one.reaches takesText_nil _)
    · simp only [List.length_cons] at hf
      exact (ih (by dsimp only; omega) h).of_reaches (hpass rfl)
    · simp only [List.length_cons] at hf
      exact (ih (by dsimp only; omega) h).of_reaches (hpass rfl)

/-! ### Compiling -/

/-- The stage at which the reading of a source begins. -/
def Stage.first (v : Vocabulary σ) (source : String) : Stage v :=
  ⟨[], Token.scan v.words source.toList⟩

/-- **A template does not compile exactly when its reading gets stuck**, and then the problem is
that of the stage where it does. -/
theorem compileAt_eq_error_iff {source : String} {path : Option String} {e : CompileError} :
    compileAt v source path depth = .error e ↔
      ∃ p, (Stage.first v source).Fails p ∧
        e = ⟨p.fault, p.function, Text.locate source.toList p.start, path.getD defaultPath⟩ := by
  have hfails {e : CompileError} (h : compileAt v source path depth = .error e) :
      ∃ p, (Stage.first v source).Fails p ∧
        e = ⟨p.fault, p.function, Text.locate source.toList p.start, path.getD defaultPath⟩ := by
    simp only [compileAt] at h
    split at h
    · cases h
    · rename_i p hread
      cases h
      exact ⟨p, readText_fails (Nat.le_refl _) hread, rfl⟩
  refine ⟨hfails, ?_⟩
  rintro ⟨p, ⟨s, hs, hstuck⟩, rfl⟩
  cases h : compileAt v source path depth with
  | ok program =>
    obtain ⟨draft, hread, -⟩ := compileAt_eq_ok_iff.1 h
    have hread : (Stage.first v source).Reaches ⟨[], []⟩ := hread.reaches
    have hend := hread.unique hs (fun _ hgoes => hgoes.tokens_ne_nil rfl) fun _ => hstuck.not_goes
    rw [← hend] at hstuck
    cases hstuck
  | error e =>
    obtain ⟨q, ⟨s', hs', hstuck'⟩, rfl⟩ := hfails h
    have hend := hs.unique hs' (fun _ => hstuck.not_goes) fun _ => hstuck'.not_goes
    rw [← hend] at hstuck'
    rw [hstuck.unique hstuck']

end

end Program

end TagTemplate
