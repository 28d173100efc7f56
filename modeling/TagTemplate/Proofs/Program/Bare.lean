import TagTemplate.Proofs.Program.Registered
import TagTemplate.Proofs.Vocabulary

/-! Functions without arguments.

A tag of such a function is an invocation by itself. So the word of the function behind a
dollar sign is a program of one invocation, in every vocabulary and at every depth; and a text
in which only such functions are invoked compiles to the same program at every depth, but for
the depth that its invocations are given. -/
namespace TagTemplate

/-- The tag of a word without modifiers. -/
def Tag.bare (word : List Char) : Tag := ⟨false, false, none, String.ofList word⟩

theorem Tag.spelling_bare (word : List Char) : (bare word).spelling = '$' :: word :=
  congrArg (List.cons '$') (String.toList_ofList (l := word))

/-- At the end of a text a word behind a dollar sign is the tag of that word. -/
theorem Tag.tagAt_bare {words : List (List Char)} (hwords : Vocabulary.LongestFirst words)
    {word : List Char} (hmem : word ∈ words) (hplain : ∀ c ∈ word, Text.isPlain c = true)
    (hne : word ≠ []) : tagAt words (bare word).spelling = some (bare word) := by
  obtain ⟨c, cs, rfl⟩ := List.exists_cons_of_ne_nil hne
  have hc : Text.isPlain c = true := hplain c List.mem_cons_self
  have hmark {mark : Char} (hmark : Text.isPlain mark = false) : c ≠ mark := by
    rintro rfl
    cases hc.symm.trans hmark
  rw [spelling_bare, tagAt, afterDollar_of_ne (hmark (by decide)),
    afterNegation_of_ne (hmark (by decide)), afterMarks_of_ne (hmark (by decide)),
    wordAt_of_sameWord hwords hmem rfl]
  rfl

namespace Vocabulary
variable {σ : Type} {natives : List (Native σ)} {word : List Char} {native : Native σ}

/-- A plain word that resolves is one of the words of tags. -/
theorem mem_words_of_resolve (hplain : ∀ c ∈ word, Text.isPlain c = true) (hne : word ≠ [])
    (h : (ofNatives natives).resolve (String.ofList word) = some native) :
    word ∈ (ofNatives natives).words := by
  have hlower : (String.ofList word).toList.map Text.lowerChar = word := by
    rw [String.toList_ofList]
    exact (List.map_congr_left fun c hc => Text.lowerChar_of_isPlain (hplain c hc)).trans
      (List.map_id word)
  have hknown : normalise (String.ofList word) ∈ knownNames natives :=
    resolve_isSome_iff.1 (Option.isSome_of_eq_some h)
  rw [normalise_of_map_lowerChar hplain hlower] at hknown
  exact mem_words_ofNatives.2 ⟨hne, _, hknown, toList_bareName hplain⟩

end Vocabulary

/-- An invocation as one of a program of another depth. -/
def Invocation.atDepth {σ : Type} (depth : Nat) : Invocation σ → Invocation σ
  | .mk heading native fields => .mk { heading with depth } native fields

@[simp] theorem Invocation.native_atDepth {σ : Type} (depth : Nat) (i : Invocation σ) :
    (i.atDepth depth).native = i.native := by
  cases i
  rfl

@[simp] theorem Invocation.negated_atDepth {σ : Type} (depth : Nat) (i : Invocation σ) :
    (i.atDepth depth).heading.negated = i.heading.negated := by
  cases i
  rfl

/-- A draft of a program of another depth. -/
def Draft.atDepth {σ : Type} (depth : Nat) (draft : Draft σ) : Draft σ :=
  ⟨draft.text, draft.invocations.map (·.atDepth depth)⟩

namespace Program
variable {σ : Type} {v : Vocabulary σ}

/-- **The word of a function without arguments, behind a dollar sign, is a program** of one
invocation. -/
theorem compileAt_bare {word : List Char} {native : Native σ}
    (htag : Tag.tagAt v.words (Tag.bare word).spelling = some (Tag.bare word))
    (hresolve : v.resolve (String.ofList word) = some native)
    (hargs : native.signature.args = none) (path : Option String) (depth : Nat) :
    compileAt v (String.ofList ('$' :: word)) path depth =
      .ok (ofDraft (String.ofList ('$' :: word)) path depth
        (({} : Draft σ).invoke (.mk ((Tag.bare word).heading native 0 depth) native none))) := by
  have htokens : Token.scan v.words (String.ofList ('$' :: word)).toList =
      [.tag 0 (Tag.bare word)] := by
    rw [String.toList_ofList, ← Tag.spelling_bare]
    exact Token.scan_spelling v.words htag
  refine compileAt_eq_ok_iff.2 ⟨_, ?_, rfl⟩
  rw [htokens]
  have harguments : ReadsArguments v depth native.signature.args ⟨[], 0⟩ none ⟨[], 0⟩ :=
    hargs ▸ .noSchema
  exact .tag (.mk hresolve harguments) .done

/-- What is drafted is read. -/
theorem ReadsText.subset {depth : Nat} {draft result : Draft σ} {c : Cursor}
    (h : ReadsText v depth draft c result) : draft.invocations ⊆ result.invocations := by
  induction h with
  | done => exact List.Subset.refl _
  | tag _ _ ih => exact fun i hi => ih (List.mem_append_left _ hi)
  | undone _ _ ih | kept _ _ ih | char _ ih => exact ih

/-- A text is read alike at every depth if no function in it takes arguments. -/
theorem ReadsText.atDepth {depth : Nat} {draft result : Draft σ} {c : Cursor}
    (h : ReadsText v depth draft c result)
    (hargs : ∀ i ∈ result.invocations, i.native.signature.args = none) (depth' : Nat) :
    ReadsText v depth' (draft.atDepth depth') c (result.atDepth depth') := by
  induction h with
  | done => exact .done
  | @tag draft start tag ts n i c' result one more ih =>
    have hi := hargs i (more.subset (List.mem_append_right _ (List.mem_singleton_self i)))
    cases one with
    | @mk _ native fields _ c' resolved arguments =>
      replace hi : native.signature.args = none := hi
      have harguments : ReadsArguments v depth' native.signature.args ⟨ts, n⟩ fields c' := by
        rw [hi] at arguments ⊢
        cases arguments
        exact .noSchema
      refine .tag (.mk resolved harguments) ?_
      have hmore := ih hargs
      rwa [Draft.atDepth, Draft.invoke, List.map_append] at hmore
  | undone before _ ih => exact .undone before (ih hargs)
  | kept after _ ih => exact .kept after (ih hargs)
  | char _ ih => exact .char (ih hargs)

/-- **A program in which no function takes arguments is the same at every depth.** -/
theorem compileAt_atDepth {depth : Nat} {source : String} {path : Option String} {p : Program σ}
    (h : compileAt v source path depth = .ok p)
    (hargs : ∀ i ∈ p.invocations, i.native.signature.args = none) (depth' : Nat) :
    compileAt v source path depth' = .ok
      { p with invocations := p.invocations.map (·.atDepth depth'), depth := depth' } := by
  obtain ⟨draft, hread, rfl⟩ := compileAt_eq_ok_iff.1 h
  exact compileAt_eq_ok_iff.2 ⟨draft.atDepth depth', hread.atDepth hargs depth', rfl⟩

end Program

end TagTemplate
