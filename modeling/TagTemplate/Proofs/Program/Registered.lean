import TagTemplate.Native.Builtin
import TagTemplate.Proofs.Program.Reading
import TagTemplate.Proofs.Program.Tokens
import TagTemplate.Proofs.Tag.Words

/-! Which tags resolve.

A tag is recognised by the letters of its word, case aside, and resolved by the normal
form of its name. The two notions of a name agree for some natives exactly when their
names are `CaseClosed`: whatever differs from the word of a known name at most in case is
a known name too. Then every tag of every text resolves, and no text fails to compile for
want of a function; otherwise a text of one tag shows the difference (`tags_resolve_iff`).

For plain names the condition is seen at a glance. Only the long s folds to a plain letter
without lowering to it, so plain names are closed exactly when none has an s in it. -/
namespace TagTemplate

/-! ### Tags and the words they are written for -/

namespace Tag
variable {words : List (List Char)}

/-- A match that is marked was found somewhere in the text. -/
theorem exists_rule_of_mem_marksFrom {α : Type} {rule : List Char → Option α} {width : α → Nat}
    {skip : Nat} {cs : List Char} {c : Char} {found : α}
    (h : (c, some found) ∈ marksFrom rule width skip cs) :
    ∃ rest, rest <:+ cs ∧ rule rest = some found := by
  obtain ⟨index, h⟩ := List.getElem?_of_mem h
  exact ⟨cs.drop index, List.drop_suffix index cs, rule_of_getElem?_marksFrom h⟩

/-- At the end of a text a word is read in full, in whatever case it is written. -/
theorem wordAt_of_sameWord (hw : Vocabulary.LongestFirst words) {word cs : List Char}
    (hmem : word ∈ words) (hsame : Text.SameWord word cs) :
    wordAt words cs = some (String.ofList cs) := by
  have hword := hsame.spelledAs []
  rw [List.append_nil] at hword
  cases hfind : words.findSome? fun word => Text.spelledAs word cs with
  | none =>
    rw [List.findSome?_eq_none_iff.1 hfind word hmem] at hword
    cases hword
  | some spelled =>
    have hlong := length_le_of_first hw hfind hmem hword
    obtain ⟨first, -, hspelled⟩ := List.exists_of_findSome?_eq_some hfind
    obtain ⟨rest, hcs⟩ := Text.spelledAs_eq_append hspelled
    rw [← Text.length_of_spelledAs hword] at hlong
    have hprefix : spelled <+: cs := ⟨rest, hcs.symm⟩
    rw [wordAt, hfind, hprefix.eq_of_length_le hlong]
    rfl

/-- The tag of a name with an empty annotation, which keeps the name from being taken for
the marks of another tag. -/
def annotated (name : List Char) : Tag := ⟨false, false, some "", String.ofList name⟩

theorem tagAt_annotated (hw : Vocabulary.LongestFirst words) {word cs : List Char}
    (hmem : word ∈ words) (hsame : Text.SameWord word cs) :
    tagAt words (annotated cs).spelling = some (annotated cs) := by
  have hspelling : (annotated cs).spelling = '$' :: '@' :: '[' :: ']' :: cs := by
    simp [annotated, spelling, spellCount]
  have hcounted : countedWord words (']' :: cs) = some ([], String.ofList cs) := by
    simp [countedWord, wordAt_of_sameWord hw hmem hsame]
  rw [hspelling, tagAt, afterDollar_of_ne (by decide), afterNegation_of_ne (by decide),
    afterMarks, hcounted]
  rfl

end Tag

/-- A tag that is read was marked. -/
theorem Token.exists_mark_of_mem_ofMarks {start skip pos : Nat} {t : Tag}
    {ms : List (Char × Option Tag)} (h : Token.tag start t ∈ ofMarks skip pos ms) :
    ∃ c, (c, some t) ∈ ms := by
  fun_induction ofMarks skip pos ms with
  | case1 => cases h
  | case2 skip pos mark rest ih => exact (ih h).imp fun _ => List.mem_cons_of_mem _
  | case3 pos c tag rest ih =>
    rcases List.mem_cons.1 h with heq | h
    · cases heq
      exact ⟨c, List.mem_cons_self⟩
    · exact (ih h).imp fun _ => List.mem_cons_of_mem _
  | case4 pos c mark rest ih =>
    have hmem := List.mem_of_ne_of_mem Token.noConfusion h
    exact (ih hmem).imp fun _ => List.mem_cons_of_mem _
  | case5 pos c rest hne ih =>
    have hmem := List.mem_of_ne_of_mem Token.noConfusion h
    exact (ih hmem).imp fun _ => List.mem_cons_of_mem _

/-! ### Reading where every tag resolves -/

/-- A sequence of steps fails where its first step fails, or behind it. -/
theorem Except.bind_eq_error {ε α β : Type} {x : Except ε α} {f : α → Except ε β} {e : ε}
    (h : x >>= f = .error e) : x = .error e ∨ ∃ a, x = .ok a ∧ f a = .error e := by
  cases x with
  | error e' =>
    cases h
    exact .inl rfl
  | ok a => exact .inr ⟨a, rfl, h⟩

/-- Whether every tag among some tokens resolves. -/
def Vocabulary.Covers {σ : Type} (v : Vocabulary σ) (tokens : List Token) : Prop :=
  ∀ start t, .tag start t ∈ tokens → (v.resolve t.name).isSome = true

theorem Vocabulary.Covers.of_suffix {σ : Type} {v : Vocabulary σ} {a b : List Token}
    (h : v.Covers b) (hs : a <:+ b) : v.Covers a :=
  fun start t ht => h start t (hs.subset ht)

namespace Program
variable {σ : Type} {v : Vocabulary σ} {depth : Nat} {p : Problem}

mutual

theorem readInvocation_error {fuel start : Nat} {tag : Tag} {c : Cursor}
    (ht : (v.resolve tag.name).isSome = true) (hc : v.Covers c.tokens)
    (h : readInvocation v depth fuel start tag c = .error p) : p.fault ≠ .unregistered := by
  match fuel with
  | 0 =>
    rw [readInvocation] at h
    cases h
    exact nofun
  | fuel + 1 =>
    rw [readInvocation] at h
    split at h
    · rename_i hnone
      rw [hnone] at ht
      cases ht
    · rcases Except.bind_eq_error h with h | ⟨⟨fields, c'⟩, -, h⟩
      · exact readArguments_error hc h
      · cases h

theorem readArguments_error {fuel start : Nat} {name : String} {args : Option ArgumentSchema}
    {c : Cursor} (hc : v.Covers c.tokens)
    (h : readArguments v depth fuel start name args c = .error p) : p.fault ≠ .unregistered := by
  match fuel, args with
  | 0, _ =>
    rw [readArguments] at h
    cases h
    exact nofun
  | fuel + 1, none =>
    rw [readArguments] at h
    cases h
  | fuel + 1, some schema =>
    obtain ⟨ts, n⟩ := c
    simp only [readArguments] at h
    split at h
    · rename_i ts
      have hts : v.Covers ts := hc.of_suffix (List.suffix_cons _ _)
      split at h
      · cases h
        exact nofun
      · cases h
      · cases h
        exact nofun
      · rcases Except.bind_eq_error h with h | ⟨⟨fields, c'⟩, -, h⟩
        · exact readFields_error hts h
        · cases h
    · split at h
      · cases h
        exact nofun
      · cases h

theorem readFields_error {fuel start : Nat} {name : String} {max : Nat} {spec : FieldSpec}
    {specs : List FieldSpec} {c : Cursor} (hc : v.Covers c.tokens)
    (h : readFields v depth fuel start name max spec specs c = .error p) :
    p.fault ≠ .unregistered := by
  match fuel with
  | 0 =>
    rw [readFields] at h
    cases h
    exact nofun
  | fuel + 1 =>
    rw [readFields] at h
    rcases Except.bind_eq_error h with h | ⟨⟨field, closed, c'⟩, hone, h⟩
    · exact readField_error hc h
    · have hsuffix := (ReadsField.of_read hone).suffix
      have hc' : v.Covers c'.tokens := hc.of_suffix (hsuffix.trans (List.tail_suffix _))
      dsimp only at h
      split at h
      · cases h
      · split at h
        · rcases Except.bind_eq_error h with h | ⟨⟨fields, c''⟩, -, h⟩
          · exact readFields_error hc' h
          · cases h
        · split at h
          · cases h
            exact nofun
          · rcases Except.bind_eq_error h with h | ⟨⟨fields, c''⟩, -, h⟩
            · exact readFields_error hc' h
            · cases h

theorem readField_error {fuel start : Nat} {name : String} {condition : Bool} {draft : Draft σ}
    {before : Option (Operator × Draft σ)} {c : Cursor} (hc : v.Covers c.tokens)
    (h : readField v depth fuel start name condition draft before c = .error p) :
    p.fault ≠ .unregistered := by
  match fuel with
  | 0 =>
    rw [readField] at h
    cases h
    exact nofun
  | fuel + 1 =>
    obtain ⟨ts, n⟩ := c
    simp only [readField] at h
    split at h
    · cases h
      exact nofun
    · exact readField_error (hc.of_suffix (List.suffix_cons _ _)) h
    · rename_i inner tag ts
      have hts : v.Covers ts := hc.of_suffix (List.suffix_cons _ _)
      rcases Except.bind_eq_error h with h | ⟨⟨i, c'⟩, hone, h⟩
      · exact readInvocation_error (hc inner tag List.mem_cons_self) hts h
      · exact readField_error (hts.of_suffix (ReadsInvocation.of_read hone).suffix) h
    · split at h
      · cases h
      · split at h
        · exact readField_error (hc.of_suffix (List.drop_suffix _ _)) h
        · exact readField_error (hc.of_suffix (List.suffix_cons _ _)) h

end

theorem readText_error {fuel : Nat} {draft : Draft σ} {c : Cursor} (hc : v.Covers c.tokens)
    (h : readText v depth fuel draft c = .error p) : p.fault ≠ .unregistered := by
  induction fuel generalizing draft c with
  | zero => cases h
  | succ fuel ih =>
    obtain ⟨ts, n⟩ := c
    simp only [readText] at h
    split at h
    · cases h
    · rename_i start tag ts
      have hts : v.Covers ts := hc.of_suffix (List.suffix_cons _ _)
      rcases Except.bind_eq_error h with h | ⟨⟨i, c'⟩, hone, h⟩
      · exact readInvocation_error (hc start tag List.mem_cons_self) hts h
      · exact ih (hts.of_suffix (ReadsInvocation.of_read hone).suffix) h
    · exact ih (hc.of_suffix (List.suffix_cons _ _)) h
    · exact ih (hc.of_suffix (List.suffix_cons _ _)) h

/-- Where every tag resolves, a text that does not compile has another fault. -/
theorem compileAt_error {source : String} {path : Option String} {e : CompileError}
    (hc : v.Covers (Token.scan v.words source.toList))
    (h : compileAt v source path depth = .error e) : e.fault ≠ .unregistered := by
  simp only [compileAt] at h
  split at h
  · cases h
  · rename_i problem hread
    cases h
    exact readText_error hc hread

/-- A text that is one tag, and no native answers to it, does not compile. -/
theorem compileAt_of_unresolved {t : Tag} (path : Option String) (depth : Nat)
    (htag : Tag.tagAt v.words t.spelling = some t) (hnone : v.resolve t.name = none) :
    ∃ e, compileAt v (String.ofList t.spelling) path depth = .error e ∧
      e.fault = .unregistered := by
  simp only [compileAt, String.toList_ofList, Token.scan_spelling v.words htag, List.length_singleton, readText,
    readInvocation, hnone]
  exact ⟨_, rfl, rfl⟩

end Program

namespace Vocabulary
variable {σ : Type}

/-- Whether whatever differs from the word of a name at most in case is a name again. -/
def CaseClosed (names : List String) : Prop :=
  ∀ name ∈ names, bareName name ≠ "" →
    ∀ spelled : String, Text.SameWord (bareName name).toList spelled.toList →
      normalise spelled ∈ names

section
variable {natives : List (Native σ)}

/-- With closed names every tag that is recognised resolves. -/
theorem resolve_of_mem_tagMarks (hclosed : CaseClosed (knownNames natives)) {cs : List Char}
    {c : Char} {t : Tag} (h : (c, some t) ∈ Tag.tagMarks (ofNatives natives).words cs) :
    ((ofNatives natives).resolve t.name).isSome = true := by
  obtain ⟨rest, -, htag⟩ := Tag.exists_rule_of_mem_marksFrom h
  obtain ⟨word, hword, hsame⟩ := Tag.exists_word_of_tagAt htag
  obtain ⟨hne, name, hname, hbare⟩ := mem_words_ofNatives.1 hword
  rw [← hbare] at hsame
  have hne : bareName name ≠ "" := fun hempty => hne (by rw [← hbare, hempty]; rfl)
  exact resolve_isSome_iff.2 (hclosed name hname hne t.name hsame)

/-- A spelling of a known name, as a text of its own, is a tag. -/
theorem tagAt_of_mem_knownNames {name spelled : String} (hname : name ∈ knownNames natives)
    (hne : bareName name ≠ "")
    (hsame : Text.SameWord (bareName name).toList spelled.toList) :
    Tag.tagAt (ofNatives natives).words (Tag.annotated spelled.toList).spelling =
      some (Tag.annotated spelled.toList) := by
  have hword : (bareName name).toList ∈ (ofNatives natives).words :=
    mem_words_ofNatives.2 ⟨by simpa using hne, name, hname, rfl⟩
  exact Tag.tagAt_annotated (longestFirst_wordsOf _) hword hsame

end

/-- **Whatever is recognised as a tag resolves exactly when the known names are closed
under a change of case**, and exactly then no text fails to compile for want of a
function. -/
theorem tags_resolve_iff (natives : List (Native σ)) :
    ((∀ (text : String) (c : Char) (t : Tag),
        (c, some t) ∈ Tag.tagMarks (ofNatives natives).words text.toList →
          ((ofNatives natives).resolve t.name).isSome = true) ↔
      CaseClosed (knownNames natives)) ∧
    ((∀ (source : String) (path : Option String) (depth : Nat) (e : CompileError),
        Program.compileAt (ofNatives natives) source path depth = .error e →
          e.fault ≠ .unregistered) ↔
      CaseClosed (knownNames natives)) := by
  refine ⟨⟨fun h name hname hne spelled hsame => ?_,
    fun hclosed text c t => resolve_of_mem_tagMarks hclosed⟩,
    ⟨fun h name hname hne spelled hsame => ?_, fun hclosed source path depth e => ?_⟩⟩
  · have htag := tagAt_of_mem_knownNames hname hne hsame
    have hmark : ('$', some (Tag.annotated spelled.toList)) ∈
        Tag.tagMarks (ofNatives natives).words
          (String.ofList (Tag.annotated spelled.toList).spelling).toList := by
      rw [String.toList_ofList, Tag.tagMarks, Tag.marks, Tag.spelling, Tag.marksFrom,
        ← Tag.spelling, htag]
      exact List.mem_cons_self
    have hresolve := resolve_isSome_iff.1 (h _ _ _ hmark)
    rwa [Tag.annotated, String.ofList_toList] at hresolve
  · have htag := tagAt_of_mem_knownNames hname hne hsame
    refine Classical.byContradiction fun hunknown => ?_
    have hnone : (ofNatives natives).resolve (Tag.annotated spelled.toList).name = none := by
      rw [Tag.annotated, String.ofList_toList]
      exact Option.not_isSome_iff_eq_none.1 fun hsome => hunknown (resolve_isSome_iff.1 hsome)
    obtain ⟨e, he, hfault⟩ :=
      Program.compileAt_of_unresolved none 0 htag hnone
    exact h _ _ _ e he hfault
  · refine Program.compileAt_error fun start t ht => ?_
    obtain ⟨c, hmark⟩ := Token.exists_mark_of_mem_ofMarks ht
    exact resolve_of_mem_tagMarks hclosed hmark

/-- With a long s in its word the built-in stop is recognised as a tag, but no native answers
to it, and the text does not compile. -/
theorem tag_longS_unregistered :
    let v : Vocabulary Unit := ofNatives Builtin.all
    let t : Tag := ⟨false, false, none, "ſtop"⟩
    v.tags? "$ſtop" = some [(⟨0, 6⟩, t)] ∧ v.resolve t.name = none ∧
      ∃ e, Program.compile v "$ſtop" none = .error e ∧ e.fault = .unregistered := by
  intro v t
  have htag : Tag.tagAt v.words t.spelling = some t := by decide +kernel
  have hnone : v.resolve t.name = none := Option.isNone_iff_eq_none.1 (by decide +kernel)
  have hsource : String.ofList t.spelling = "$ſtop" := by decide +kernel
  have hfails := Program.compileAt_of_unresolved none 0 htag hnone
  rw [hsource] at hfails
  exact ⟨by decide +kernel, hnone, hfails⟩

/-! ### Plain names -/

/-- **Plain names are closed under a change of case exactly when none has an s in it**: the
long s is recognised in its place, and stays what it is in lower case. -/
theorem caseClosed_iff_of_plain {names : List String} (hplain : ∀ name ∈ names, PlainName name) :
    CaseClosed names ↔ ∀ name ∈ names, 's' ∉ name.toList := by
  constructor
  · intro hclosed name hname hs
    obtain ⟨word, hne, hchars, rfl⟩ := hplain name hname
    let longS (c : Char) : Char := if c = 's' then 'ſ' else c
    have hfold : ∀ c, Text.fold (longS c) = Text.fold c := by
      intro c
      by_cases hc : c = 's'
      · subst hc
        decide
      · simp [longS, hc]
    have hsame : Text.SameWord (bareName (String.ofList ('$' :: word))).toList
        (String.ofList (word.map longS)).toList := by
      rw [toList_bareName hchars, String.toList_ofList, Text.SameWord, List.map_map]
      exact List.map_congr_left fun c _ => (hfold c).symm
    have hbare : bareName (String.ofList ('$' :: word)) ≠ "" := by
      intro hempty
      have hword := toList_bareName hchars
      rw [hempty] at hword
      exact hne hword.symm
    obtain ⟨known, -, hknown, hnormal⟩ := hplain _ (hclosed _ hname hbare _ hsame)
    have hlower := map_lowerChar_of_normalise hknown hnormal
    have hmem : 'ſ' ∈ (bareName (Text.trim (String.ofList (word.map longS)))).toList := by
      rw [String.toList_ofList] at hs
      have hs : 's' ∈ word := (List.mem_cons.1 hs).resolve_left (by decide)
      refine mem_bareName_trim ?_ (by decide) (by decide)
      rw [String.toList_ofList]
      exact List.mem_map.2 ⟨'s', hs, rfl⟩
    have hlong : Text.lowerChar 'ſ' ∈ known := hlower ▸ List.mem_map_of_mem hmem
    exact absurd (hknown _ hlong) (by decide +kernel)
  · intro hs name hname hbare spelled hsame
    obtain ⟨word, hne, hchars, rfl⟩ := hplain name hname
    rw [toList_bareName hchars, Text.SameWord] at hsame
    have hword : word.map Text.fold = word :=
      (List.map_congr_left fun c hc => Text.fold_of_isPlain (hchars c hc)).trans (List.map_id word)
    rw [hword] at hsame
    have hlower : spelled.toList.map Text.lowerChar = word := by
      rw [hsame]
      refine List.map_congr_left fun c hc => ?_
      have hmem : Text.fold c ∈ word := hsame ▸ List.mem_map_of_mem hc
      refine Text.lowerChar_of_fold (hchars _ hmem) fun heq => hs _ hname ?_
      rw [String.toList_ofList, ← heq]
      exact List.mem_cons_of_mem _ hmem
    rw [normalise_of_map_lowerChar hchars hlower]
    exact hname

end Vocabulary

end TagTemplate
