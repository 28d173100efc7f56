import TagTemplate.Proofs.Program.Tokens
import TagTemplate.Proofs.Run.Resolved
import TagTemplate.Proofs.Tag.Shapes

/-! Which texts a run looks into.

A run compiles a produced text only when the text has a tag shape, and the shape is narrower
than a tag: it knows no marks, no annotation, and only names that begin with an ASCII letter
or an underscore. A tag that has none of these is seen (`Vocabulary.Reads.hasShape`), since
every tag of a text is written out in it. So a text that compiles to a program with an
invocation is detected, and then it is run or looked into, unless all of its tags are
`Hidden`: `Program.detected_of_compileAt`. -/
namespace TagTemplate

namespace Tag

/-- Whether something keeps the name of a tag from being seen: a mark or an annotation before
it, or its first character. -/
def Hidden (t : Tag) : Prop :=
  t.negated = true ∨ t.silent = true ∨ t.count ≠ none ∨
    t.name.toList.head?.any startsName = false

instance (t : Tag) : Decidable t.Hidden := inferInstanceAs (Decidable (_ ∨ _ ∨ _ ∨ _))

/-- A tag that is not hidden is spelled as a dollar sign and the beginning of a name. -/
theorem spelling_of_not_hidden {t : Tag} (h : ¬ t.Hidden) :
    ∃ c rest, t.spelling = '$' :: c :: rest ∧ startsName c = true := by
  simp only [Hidden, not_or, Bool.not_eq_true, Bool.not_eq_false, Decidable.not_not] at h
  obtain ⟨hnegated, hsilent, hcount, hstarts⟩ := h
  obtain ⟨c, hhead, hc⟩ := (Option.any_eq_true _ _).1 hstarts
  obtain ⟨rest, hname⟩ := List.head?_eq_some_iff.1 hhead
  refine ⟨c, rest, ?_, hc⟩
  simp [spelling, hnegated, hsilent, hcount, hname, spellCount]

end Tag

/-- Whether a tag is read in a text. -/
def Vocabulary.Reads {σ : Type} (v : Vocabulary σ) (text : String) (t : Tag) : Prop :=
  ∃ start, .tag start t ∈ Token.scan v.words text.toList

namespace Vocabulary.Reads
variable {σ : Type} {v : Vocabulary σ} {text : String} {t : Tag}

/-- A tag that is read in a text is written there. -/
theorem exists_append (h : v.Reads text t) :
    ∃ before after, text.toList = before ++ (t.spelling ++ after) := by
  obtain ⟨start, hmem⟩ := h
  obtain ⟨before, after, hsplit⟩ := List.append_of_mem hmem
  have htext := Token.flatMap_spelling_ofChars v.words 0 0 text.toList
  have htokens : Token.ofChars v.words 0 0 text.toList = before ++ .tag start t :: after := hsplit
  rw [htokens, List.flatMap_append, List.flatMap_cons] at htext
  exact ⟨_, _, htext.symm⟩

/-- **A text with a tag that is not hidden has a tag shape.** -/
theorem hasShape (h : v.Reads text t) (hshown : ¬ t.Hidden) : Tag.hasShape text = true := by
  obtain ⟨before, after, htext⟩ := h.exists_append
  obtain ⟨c, rest, hspelling, hc⟩ := Tag.spelling_of_not_hidden hshown
  rw [hspelling] at htext
  exact Tag.hasShape_iff.2 ⟨before, c, rest ++ after, htext, Tag.startsName_iff.1 hc⟩

end Vocabulary.Reads

namespace Program
variable {σ : Type} {v : Vocabulary σ} {depth : Nat}

/-- Where no tag is left, reading finds no invocation. -/
theorem ReadsText.invocations_eq {draft result : Draft σ} {c : Cursor}
    (h : ReadsText v depth draft c result) (hnone : ∀ start t, .tag start t ∉ c.tokens) :
    result.invocations = draft.invocations := by
  induction h with
  | done => rfl
  | tag => exact absurd List.mem_cons_self (hnone _ _)
  | undone _ _ ih => exact ih fun start t h => hnone start t (List.mem_cons_of_mem _ h)
  | kept _ _ ih => exact ih fun start t h => hnone start t (List.mem_cons_of_mem _ h)
  | char _ ih => exact ih fun start t h => hnone start t (List.mem_cons_of_mem _ h)

/-- A text that compiles to a program with an invocation has a tag. -/
theorem exists_reads_of_compileAt {text : String} {path : Option String} {p : Program σ}
    (hp : compileAt v text path depth = .ok p) (hne : p.invocations ≠ []) :
    ∃ t, v.Reads text t := by
  obtain ⟨draft, hread, rfl⟩ := compileAt_eq_ok_iff.1 hp
  refine Classical.byContradiction fun hnone => hne ?_
  exact hread.invocations_eq fun start t h => hnone ⟨t, start, h⟩

end Program

namespace Run
variable {σ : Type} {c : Clocked (Context σ)} {depth : Nat} {text : String}

/-- A text with a shape that is no JSON text is run as it is. -/
theorem expandAt_of_hasShape (depth : Nat) (hexpand : c.state.settings.expand = true)
    (hshape : Tag.hasShape text = true) :
    expandAt depth (.string text) c =
      match Json.containerIn text with
      | some v => (do
          return Json.string
            (← v.eachString (expandString (expandTextAt depth) text.length)).compact) c
      | none => (do return Json.string (← expandTextAt depth text)) c := by
  rw [expandAt, expandWith, Timed.bind_some (Timed.get_apply c), if_pos hexpand, Json.eachString,
    expandString, hshape]
  rw [Bool.not_true, if_neg Bool.false_ne_true]
  cases Json.containerIn text <;> rfl

/-- What a run finds in a text with a shape that is no JSON text, when the text compiles to a
program with an invocation. -/
theorem discovered_expandAt {path : Option String} {p : Program σ}
    (hp : Program.compileAt c.state.vocabulary text path (depth + 1) = .ok p)
    (hne : p.invocations ≠ []) (hexpand : c.state.settings.expand = true)
    (hshape : Tag.hasShape text = true) (hdepth : depth < c.state.settings.maxDepth)
    (hplain : Json.containerIn text = none) :
    ∃ name names, (expandAt depth (.string text) c).2.state.session.discovered =
      c.state.session.discovered ++ name :: names := by
  have hcompiles : Program.compileValue c.state.vocabulary text path depth
      c.state.settings.maxDepth = .ok (some p) :=
    Program.compileValue_eq_some_iff.2 ⟨hshape, hdepth, hp⟩
  have hinvokes : c.state.Invokes depth text :=
    ⟨_, Program.compileValue_path c.state.program.path hcompiles, hne⟩
  have hexpands := expandAt_of_hasShape depth hexpand hshape
  rw [hplain] at hexpands
  rw [hexpands, Timed.bind_pure_apply]
  exact expandTextAt_of_invokes hinvokes

end Run

namespace Program
variable {σ : Type}

/-- **What compiles to an invocation is detected, unless all its tags are hidden.** A text
that compiles to a program with an invocation has a tag; if one of its tags is not hidden,
the text has a tag shape. Below the greatest depth it is then run, or if it is a JSON text
the strings in it are expanded, and as the value of a failure it asks for a replay. -/
theorem detected_of_compileAt {v : Vocabulary σ} {text : String} {path : Option String}
    {depth : Nat} {p : Program σ} (hp : compileAt v text path depth = .ok p)
    (hne : p.invocations ≠ []) :
    (∃ t, v.Reads text t) ∧
    ((∃ t, v.Reads text t ∧ ¬ t.Hidden) →
      Tag.hasShape text = true ∧
      ∀ c : Clocked (Context σ), c.state.vocabulary = v →
        (∀ d, depth = d + 1 → c.state.settings.expand = true → d < c.state.settings.maxDepth →
          (Json.containerIn text = none →
            ∃ name names, (Run.expandAt d (.string text) c).2.state.session.discovered =
              c.state.session.discovered ++ name :: names) ∧
          ∀ j, Json.containerIn text = some j →
            Run.expandAt d (.string text) c =
              (do return Json.string (← j.eachString
                (Run.expandString (Run.expandTextAt d) text.length)).compact) c) ∧
        ∀ function, Run.wantsReplay c.state function (.string text) =
          (c.state.settings.replay && c.state.session.replay.isNone &&
            decide (c.state.session.replays < c.state.settings.maxReplays))) := by
  refine ⟨exists_reads_of_compileAt hp hne, fun ⟨t, hreads, hshown⟩ => ?_⟩
  have hshape := hreads.hasShape hshown
  refine ⟨hshape, fun c hv => ⟨fun d hd hexpand hdepth => ⟨fun hplain => ?_, fun j hj => ?_⟩,
    fun function => ?_⟩⟩
  · subst hv hd
    exact Run.discovered_expandAt hp hne hexpand hshape hdepth hplain
  · have hexpands := Run.expandAt_of_hasShape d hexpand hshape
    rwa [hj] at hexpands
  · rw [Run.wantsReplay_string, hshape]
    simp

/-- A tag without marks is run where a value produces it. -/
theorem detected_get :
    let v : Vocabulary Unit := .ofNatives [Builtin.getNative]
    let get : Invocation Unit :=
      .mk ⟨0, "$get", false, false, none, 1⟩ Builtin.getNative
        (some [.plain ⟨"x", [], .literal "x"⟩])
    let p : Program Unit := ⟨"$get[x]", none, "[@fn:0]", [get], ⟨[.slot 0]⟩, 1⟩
    let c : Clocked (Context Unit) := ⟨none, { program := p, vocabulary := v, memory := () }⟩
    compileAt v "$get[x]" none 1 = .ok p ∧ Tag.hasShape "$get[x]" = true ∧
      ∃ name names, (Run.expandAt 0 (.string "$get[x]") c).2.state.session.discovered =
        name :: names := by
  intro v get p c
  have hcompile : compileAt v "$get[x]" none 1 = .ok p := by with_unfolding_all rfl
  have hreads : v.Reads "$get[x]" ⟨false, false, none, "get"⟩ := ⟨0, by decide +kernel⟩
  obtain ⟨hshape, hruns⟩ :=
    (detected_of_compileAt hcompile (List.cons_ne_nil _ _)).2 ⟨_, hreads, by decide⟩
  obtain ⟨hexpands, -⟩ := hruns c rfl
  exact ⟨hcompile, hshape, (hexpands 0 rfl rfl (by decide)).1 (by decide +kernel)⟩

/-- A negated tag compiles to an invocation, but its text has no tag shape, so it is not
compiled where a value produces it. -/
theorem undetected_negated :
    let v : Vocabulary Unit := .ofNatives [Builtin.getNative]
    let get : Invocation Unit :=
      .mk ⟨0, "$get", true, false, none, 1⟩ Builtin.getNative
        (some [.plain ⟨"x", [], .literal "x"⟩])
    let p : Program Unit := ⟨"$!get[x]", none, "[@fn:0]", [get], ⟨[.slot 0]⟩, 1⟩
    compileAt v "$!get[x]" none 1 = .ok p ∧ p.invocations ≠ [] ∧
      Tag.hasShape "$!get[x]" = false ∧ compileValue v "$!get[x]" none 0 5 = .ok none := by
  intro v get p
  have hcompile : compileAt v "$!get[x]" none 1 = .ok p := by with_unfolding_all rfl
  have hshape : Tag.hasShape "$!get[x]" = false := by decide +kernel
  refine ⟨hcompile, List.cons_ne_nil _ _, hshape, ?_⟩
  rw [compileValue, hshape]
  rfl

end Program

end TagTemplate
