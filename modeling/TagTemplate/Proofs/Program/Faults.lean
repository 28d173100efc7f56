import TagTemplate.Native.Builtin
import TagTemplate.Proofs.Program.Stages
import TagTemplate.Proofs.Text.Places

/-! Faults are laid on the tag they concern.

A reading that gets stuck is stuck at a tag that it is about to read, or in an argument list that
it has opened before, for a tag that it has read. In both cases an invocation was begun for that
tag: `Stage.Stuck.blames`. So a compile error names the function of a tag of the source, and gives
its place, which is that of no other character: `Program.blames_of_compileAt`. -/
namespace TagTemplate

/-! ### Marks and tokens -/

namespace Tag

/-- A tag that is marked begins with its dollar sign. -/
theorem eq_dollar_of_getElem?_tagMarks {words : List (List Char)} {cs : List Char} {index : Nat}
    {c : Char} {t : Tag} (h : (tagMarks words cs)[index]? = some (c, some t)) :
    c = '$' ∧ cs[index]? = some '$' := by
  have hchar : cs[index]? = some c := by
    rw [← map_fst_tagMarks words cs, List.getElem?_map, h]
    rfl
  obtain ⟨rest, hrest, -⟩ := tagAt_eq_append (rule_of_getElem?_marksFrom h)
  have hdollar : cs[index]? = some '$' := by
    rw [← List.head?_drop, hrest]
    rfl
  exact ⟨Option.some.inj (hchar.symm.trans hdollar), hdollar⟩

end Tag

/-- A tag that is read was marked where it starts. -/
theorem Token.getElem?_of_mem_ofMarks {start skip pos : Nat} {t : Tag}
    {ms : List (Char × Option Tag)} (h : Token.tag start t ∈ ofMarks skip pos ms) :
    ∃ index c, start = pos + index ∧ ms[index]? = some (c, some t) := by
  fun_induction ofMarks skip pos ms with
  | case1 => cases h
  | case2 skip pos mark rest ih =>
    obtain ⟨index, c, rfl, hmark⟩ := ih h
    exact ⟨index + 1, c, by omega, hmark⟩
  | case3 pos c tag rest ih =>
    rcases List.mem_cons.1 h with heq | h
    · cases heq
      exact ⟨0, c, rfl, rfl⟩
    · obtain ⟨index, d, rfl, hmark⟩ := ih h
      exact ⟨index + 1, d, by omega, hmark⟩
  | case4 pos c mark rest ih | case5 pos c rest hne ih =>
    rcases List.mem_cons.1 h with heq | h
    · cases heq
    · obtain ⟨index, d, rfl, hmark⟩ := ih h
      exact ⟨index + 1, d, by omega, hmark⟩

/-- The name of the function that a written name stands for; its normal form if no function
answers to it. -/
def Vocabulary.nameOf {σ : Type} (v : Vocabulary σ) (written : String) : String :=
  ((v.resolve written).map (·.signature.name)).getD (normalise written)

theorem Vocabulary.nameOf_of_resolve {σ : Type} {v : Vocabulary σ} {written : String}
    {native : Native σ} (h : v.resolve written = some native) :
    v.nameOf written = native.signature.name := by
  rw [nameOf, h]
  rfl

theorem Vocabulary.nameOf_of_unknown {σ : Type} {v : Vocabulary σ} {written : String}
    (h : v.resolve written = none) : v.nameOf written = normalise written := by
  rw [nameOf, h, Option.map_none, Option.getD_none]

namespace Program
variable {σ : Type} {v : Vocabulary σ} {depth : Nat}

/-! ### Invocations that are begun -/

namespace Stage

/-- Whether, from a stage on, the reader begins an invocation for a tag. -/
def Begins (s : Stage v) (start : Nat) (tag : Tag) : Prop :=
  ∃ (os : List (Opening v)) (ts : List Token),
    s.Reaches ⟨os, .tag start tag :: ts⟩ ∧ TakesText os

theorem Begins.mem_tokens {s : Stage v} {start : Nat} {tag : Tag} (h : s.Begins start tag) :
    .tag start tag ∈ s.tokens := by
  obtain ⟨os, ts, hreaches, -⟩ := h
  exact hreaches.suffix.subset List.mem_cons_self

/-- An argument list is open only for an invocation that was begun. -/
theorem Reaches.begins {s s' : Stage v} (h : s.Reaches s') (hs : s.openings = []) :
    ∀ o ∈ s'.openings, s.Begins o.start o.tag := by
  induction h with
  | refl =>
    rw [hs]
    exact List.forall_mem_nil _
  | tail hreaches hgoes ih =>
    cases hgoes with
    | text | bare | again => exact ih
    | opens room _ _ => exact List.forall_mem_cons.2 ⟨⟨_, _, hreaches, room⟩, ih⟩
    | next =>
      obtain ⟨hfirst, hothers⟩ := List.forall_mem_cons.1 ih
      exact List.forall_mem_cons.2 ⟨hfirst, hothers⟩
    | close => exact (List.forall_mem_cons.1 ih).2

/-- **A problem concerns an invocation that was begun**, and it is the innermost one that is open
where the text ends before its argument list does. -/
theorem Stuck.blames {s s' : Stage v} {p : Problem} (h : s'.Stuck p) (hreaches : s.Reaches s')
    (hs : s.openings = []) :
    ∃ tag, s.Begins p.start tag ∧ p.function = v.nameOf tag.name ∧
      (p.fault = .unclosed → ∃ (o : Opening v) (os : List (Opening v)),
        s' = ⟨o :: os, []⟩ ∧ o.start = p.start ∧ o.tag = tag) := by
  have hbegins := hreaches.begins hs
  cases h with
  | @unregistered os start tag ts room unknown =>
    have function := Vocabulary.nameOf_of_unknown unknown
    exact ⟨tag, ⟨os, ts, hreaches, room⟩, by rw [function], nofun⟩
  | @missing os start tag native schema ts room resolved _ _ _ =>
    exact ⟨tag, ⟨os, ts, hreaches, room⟩, (Vocabulary.nameOf_of_resolve resolved).symm, nofun⟩
  | @unclosed o os =>
    exact ⟨o.tag, hbegins o List.mem_cons_self, (Vocabulary.nameOf_of_resolve o.resolved).symm,
      fun _ => ⟨o, os, rfl, rfl, rfl⟩⟩
  | @filled o _ _ _ _ _ =>
    exact ⟨o.tag, hbegins o List.mem_cons_self, (Vocabulary.nameOf_of_resolve o.resolved).symm,
      nofun⟩
  | @beyond o _ _ _ _ _ =>
    exact ⟨o.tag, hbegins o List.mem_cons_self, (Vocabulary.nameOf_of_resolve o.resolved).symm,
      nofun⟩

/-- An invocation is begun where its tag was found. -/
theorem Begins.getElem?_tagMarks {source : String} {start : Nat} {tag : Tag}
    (h : (first v source).Begins start tag) :
    (Tag.tagMarks v.words source.toList)[start]? = some ('$', some tag) := by
  obtain ⟨index, c, hstart, hmark⟩ := Token.getElem?_of_mem_ofMarks h.mem_tokens
  rw [Nat.zero_add] at hstart
  rw [hstart, hmark, (Tag.eq_dollar_of_getElem?_tagMarks hmark).1]

end Stage

/-- What a compile error says of a tag of the source. -/
structure Blames (v : Vocabulary σ) (source : String) (path : Option String) (e : CompileError)
    (start : Nat) (tag : Tag) : Prop where
  dollar : source.toList[start]? = some '$'
  marked : (Tag.tagMarks v.words source.toList)[start]? = some ('$', some tag)
  unescaped : Token.tag start tag ∈ Token.scan v.words source.toList
  begun : (Stage.first v source).Begins start tag
  function : e.function = v.nameOf tag.name
  line : e.place.line = Text.lineAt source.toList start
  column : e.place.column = Text.columnAt source.toList start
  path : e.path = path.getD "index file"
  /-- No other character has the place, and the end of the source has it neither. -/
  alone : ∀ index ≤ source.length, Text.lineAt source.toList index = e.place.line →
    Text.columnAt source.toList index = e.place.column → index = start
  /-- Where an argument list is not closed, the reader comes to the end of the source, and of the
  lists that are open there the innermost is that of the tag. -/
  innermost : e.fault = .unclosed → ∃ (o : Opening v) (os : List (Opening v)),
    (Stage.first v source).Reaches ⟨o :: os, []⟩ ∧ o.start = start ∧ o.tag = tag ∧
      ∀ s, (Stage.first v source).Reaches s → s.tokens = [] → s = ⟨o :: os, []⟩

/-- **A compile error points at the tag that it names.** An invocation was begun for that tag, at
its dollar sign; the function is the one that the tag stands for, and the place is that of the
dollar sign and of no other character. Where an argument list is not closed, the invocation is the
innermost one that is open where the source ends. -/
theorem blames_of_compileAt {source : String} {path : Option String} {e : CompileError}
    (h : compileAt v source path depth = .error e) :
    ∃ start tag, Blames v source path e start tag := by
  obtain ⟨p, ⟨s, hreaches, hstuck⟩, rfl⟩ := compileAt_eq_error_iff.1 h
  obtain ⟨tag, begun, function, hunclosed⟩ := hstuck.blames hreaches rfl
  have marked := begun.getElem?_tagMarks
  have dollar := (Tag.eq_dollar_of_getElem?_tagMarks marked).2
  have hplace := Text.locate_eq source.toList p.start
  refine ⟨p.start, tag, dollar, marked, begun.mem_tokens, begun, function, ?line, ?column, rfl,
    ?alone, ?innermost⟩
  case line => rw [hplace]
  case column => rw [hplace]
  case alone =>
    intro index hindex hline hcolumn
    obtain ⟨hstart, -⟩ := List.getElem?_eq_some_iff.1 dollar
    refine Text.locate_inj (String.length_toList ▸ hindex) (Nat.le_of_lt hstart) ?_
    rw [Text.locate_eq, hline, hcolumn]
  case innermost =>
    intro hfault
    obtain ⟨o, os, rfl, hstart, htag⟩ := hunclosed hfault
    refine ⟨o, os, hreaches, hstart, htag, fun s hs hend => ?_⟩
    exact hs.unique hreaches (fun _ hgoes => hgoes.tokens_ne_nil hend)
      fun _ hgoes => hgoes.tokens_ne_nil rfl

/-- Two argument lists are left open on the second line. The error points at the inner one, the
second `$get` of the source: the first is escaped. -/
theorem blames_of_compileAt_nested :
    compileAt (.ofNatives (Builtin.all : List (Native Unit))) "é\\$get[a]\n$if[a==b;$get[x" none 0 =
        .error ⟨.unclosed, "$get", ⟨2, 9⟩, "index file"⟩ ∧
      ∃ tag, Blames (.ofNatives (Builtin.all : List (Native Unit))) "é\\$get[a]\n$if[a==b;$get[x" none
        ⟨.unclosed, "$get", ⟨2, 9⟩, "index file"⟩ 19 tag := by
  have hcompile : compileAt (.ofNatives (Builtin.all : List (Native Unit)))
      "é\\$get[a]\n$if[a==b;$get[x" none 0 = .error ⟨.unclosed, "$get", ⟨2, 9⟩, "index file"⟩ := by
    with_unfolding_all rfl
  obtain ⟨start, tag, hblames⟩ := blames_of_compileAt hcompile
  obtain rfl : 19 = start := hblames.alone 19 (by decide) (by decide) (by decide)
  exact ⟨hcompile, tag, hblames⟩

end Program

end TagTemplate
