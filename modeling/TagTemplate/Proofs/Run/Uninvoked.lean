import TagTemplate.Proofs.Program.Agreement
import TagTemplate.Proofs.Program.Registered
import TagTemplate.Proofs.Program.Spelling
import TagTemplate.Proofs.Program.Tags
import TagTemplate.Proofs.Run.Resolved
import TagTemplate.Proofs.Tag.Shapes

/-! Templates that invoke nothing.

A template may hold no tag at all, or only tags that are escaped. Its program has then one
literal at most, which is the code (`FieldText.Agrees.literal`), and a shape of the text lies
in that literal wherever it stands (`Run.straddles_whole`). So there is nothing to look into a
second time: the run gives the code and leaves the context as it found it, however much of the
text looks like a tag: `Context.run_of_uninvoked`. -/
namespace TagTemplate

/-! ### Shapes in one piece -/

/-- No shape straddles a text that is one piece. -/
theorem Run.straddles_whole (text : String) (values : List Json) :
    straddles text ((Template.literal text).spans values) = false := by
  rw [straddles, List.any_eq_false]
  intro span hspan
  have hwithin : span.within (Text.spanAt 0 text.toList) = true := by
    obtain ⟨before, shape, behind, htext, -, rfl⟩ := (Tag.shapesFrom_shapeSpans text).shaped span hspan
    rw [Text.Span.within_iff, htext]
    simp only [Text.spanAt, Text.byteWidth_append]
    omega
  by_cases hempty : text = ""
  · subst hempty
    cases hspan
  · have hspans : (Template.literal text).spans values = [Text.spanAt 0 text.toList] := by
      have hne : text.isEmpty = false := by simpa using hempty
      rw [Template.literal, hne]
      rfl
    rw [hspans, List.any_cons, hwithin]
    exact Bool.false_ne_true

/-! ### Programs without invocations -/

/-- A template without slots is a literal, if its literals are as long as they can be. -/
theorem Template.eq_literal_resolve (t : Template) (values : List Json)
    (hliteral : ∀ segment ∈ t.segments, segment.isSlot = false)
    (hnonempty : ∀ content, .text content ∈ t.segments → content ≠ "")
    (hapart : t.segments.IsChain fun a b => a.isSlot = true ∨ b.isSlot = true) :
    t = .literal (t.resolve values) := by
  match t with
  | ⟨[]⟩ => rfl
  | ⟨[.slot position]⟩ => cases hliteral _ List.mem_cons_self
  | ⟨[.text content]⟩ =>
    have hresolve : resolve ⟨[.text content]⟩ values = content := String.empty_append
    have hne : content.isEmpty = false := by simpa using hnonempty content List.mem_cons_self
    rw [hresolve, literal, hne]
    rfl
  | ⟨first :: second :: segments⟩ =>
    have hslot := (List.isChain_cons_cons.1 hapart).1
    rw [hliteral first List.mem_cons_self,
      hliteral second (List.mem_cons_of_mem _ List.mem_cons_self)] at hslot
    rcases hslot with h | h <;> cases h

/-- **A text without invocations is its code**, in one piece. -/
theorem FieldText.Agrees.literal {σ : Type} {t : FieldText (Invocation σ)} (h : t.Agrees)
    (hnone : t.invocations = []) : t.template = .literal t.value := by
  have hslots := h.slots
  rw [hnone] at hslots
  have hliteral : ∀ segment ∈ t.template.segments, segment.isSlot = false := by
    intro segment hsegment
    have hposition := List.filterMap_eq_nil_iff.1 hslots segment hsegment
    cases segment with
    | text content => rfl
    | slot position => cases hposition
  rw [← h.code]
  exact t.template.eq_literal_resolve _ hliteral h.nonempty h.apart

theorem Template.stretch_toList (text : String) :
    (⟨stretch text.toList⟩ : Template) = .literal text := by
  simp [stretch, literal]

/-- Characters alone are a text in one piece. -/
theorem FieldText.ofParts_chars {σ : Type} (text : String) :
    ofParts (text.toList.map (.char : Char → Part (Invocation σ))) = ⟨text, [], .literal text⟩ := by
  have hsplit := Part.split_chars_append text.toList ([] : List (Part (Invocation σ)))
  rw [List.append_nil] at hsplit
  rw [ofParts, hsplit]
  simp [Part.split, Invocation.slottedCode, Template.slotted, ← Template.stretch_toList]

namespace Program
variable {σ : Type} {v : Vocabulary σ} {source : String} {path : Option String} {depth : Nat}
  {p : Program σ}

/-- A program has no invocation exactly where no tag is read in its source: there is none, or
all are escaped. -/
theorem invocations_eq_nil_iff (h : compileAt v source path depth = .ok p) :
    p.invocations = [] ↔ ∀ start t, .tag start t ∉ Token.scan v.words source.toList := by
  have hwalk := walk_of_compileAt h
  constructor
  · intro hnone start t ht
    have hempty : p.walk = [] := by
      rw [walk, hnone]
      rfl
    rw [hempty] at hwalk
    exact List.not_mem_nil (List.forall₂_nil_left_iff.1 hwalk ▸ Token.mem_tags.2 ht)
  · intro hread
    rw [List.eq_nil_iff_forall_not_mem]
    intro i hi
    have htags : Token.tags (Token.scan v.words source.toList) = [] :=
      List.eq_nil_iff_forall_not_mem.2 fun tag htag => hread _ _ (Token.mem_tags.1 htag)
    rw [htags] at hwalk
    exact List.not_mem_nil (List.forall₂_nil_right_iff.1 hwalk ▸ mem_walk hi)

/-- **Where no tag is recognised, the source is the program**, backslashes and all. -/
theorem compileAt_of_unmarked (v : Vocabulary σ) (source : String) (path : Option String)
    (depth : Nat) (h : ∀ mark ∈ Tag.tagMarks v.words source.toList, mark.2 = none) :
    compileAt v source path depth = .ok ⟨source, path, source, [], .literal source, depth⟩ := by
  have hnone : (Token.scan v.words source.toList).any Token.marksTag = false := by
    rw [Token.scan, Token.any_marksTag_ofMarks, List.any_eq_false]
    exact fun mark hmark => by simp [h mark hmark]
  have hchars : (Token.scan v.words source.toList).flatMap Token.spelling = source.toList :=
    Token.flatMap_spelling_ofChars v.words 0 0 source.toList
  rw [compileAt_eq_ok_iff]
  refine ⟨_, .of_any_eq_false hnone, ?_⟩
  rw [hchars, ofDraft_extend, FieldText.ofParts_chars]
  rfl

end Program

/-! ### Runs without invocations -/

namespace Context
variable {σ : Type} {c : Context σ} {v : Vocabulary σ} {source : String} {path : Option String}
  {depth : Nat}

/-- **A template without invocations gives its own code.** Its program has no invocation
exactly where no tag is read, so that each tag of the source is escaped. Then the run gives
the code, whatever in it looks like a tag, and changes nothing: nothing is called, found or
reported. Where no tag is recognised at all, the code is the source. -/
theorem run_of_uninvoked (h : Program.compileAt v source path depth = .ok c.program)
    (hgates : c.passesGates = true) (hwithheld : c.withheld = true) :
    (c.program.invocations = [] ↔ ∀ start t, .tag start t ∉ Token.scan v.words source.toList) ∧
    (c.program.invocations = [] → c.run = (some c.program.code, c)) ∧
    ((∀ mark ∈ Tag.tagMarks v.words source.toList, mark.2 = none) →
      c.program.invocations = [] ∧ c.program.code = source) := by
  refine ⟨Program.invocations_eq_nil_iff h, fun hnone => ?_, fun hunmarked => ?_⟩
  · have hpass : Run.pass (Run.expandAt c.program.depth) c.program (some c.edition) ⟨none, c⟩ =
        (some (.ok (.complete [])), ⟨none, c⟩) := by
      rw [Run.pass, hnone]
      rfl
    have hliteral : c.program.template = .literal c.program.code :=
      (Program.agrees_of_hasText h .top).literal hnone
    have hcode : c.program.resolve [] = c.program.code := by
      have hagrees := (Program.agrees_of_hasText h .top).code
      rw [Program.text, hnone] at hagrees
      exact hagrees
    rw [run_of_pass hgates hpass, Run.conclude_eq _ _ hwithheld, hcode, hliteral,
      Run.straddles_whole, Bool.and_false, if_neg Bool.false_ne_true]
  · have hcompiled := Program.compileAt_of_unmarked v source path depth hunmarked
    rw [Except.ok.inj (h.symm.trans hcompiled)]
    exact ⟨rfl, rfl⟩

/-- Escaped tags, an escaped bracket and a name that nothing is registered under: the code is
left as it is, although it is full of what looks like tags. -/
theorem run_of_uninvoked_escaped :
    let v : Vocabulary Unit := .ofNatives [Builtin.getNative]
    let source := "\\[\\$get[a] $nope[$n] \\$get"
    let code := "[$get[a] $nope[$n] $get"
    let p : Program Unit := ⟨source, none, code, [], .literal code, 0⟩
    let c : Context Unit := { program := p, vocabulary := v, withheld := true, memory := () }
    Program.compileAt v source none 0 = .ok p ∧ c.passesGates = true ∧ c.withheld = true ∧
      Tag.hasShape code = true ∧ c.run = (some code, c) := by
  intro v source code p c
  have hcompile : Program.compileAt v source none 0 = .ok p := by
    subst p code source v
    with_unfolding_all rfl
  exact ⟨hcompile, rfl, rfl, by decide +kernel, (run_of_uninvoked hcompile rfl rfl).2.1 rfl⟩

end Context

end TagTemplate
