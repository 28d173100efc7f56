import TagTemplate.Proofs.Program.Filled
import TagTemplate.Proofs.Program.Tags
import TagTemplate.Proofs.Run.Order
import TagTemplate.Proofs.Run.Resolved

/-! What the last look at a text does.

Whether the text of a run is run once more is decided by its shapes: one of them has to straddle
the pieces that the text was put together from. What is run then is the text as a whole. An
invocation starts at every tag that is read in it, be it in a shape that straddles or in one that
lies wholly in one piece, and what comes of the text is what comes of any text that is compiled.
So a shape inside one piece is left alone as long as no call in the text takes up any of it:
`Context.run_lastLook`. -/
namespace TagTemplate

/-- Whether a tag is read in a text that starts in a span of it. -/
def Vocabulary.ReadsIn {σ : Type} (v : Vocabulary σ) (text : String) (span : Text.Span) : Prop :=
  ∃ start t, .tag start t ∈ Token.scan v.words text.toList ∧
    span.Has (Text.byteWidth (text.toList.take start))

namespace Program
variable {σ : Type} {v : Vocabulary σ}

/-- Whether an invocation of a program starts in a span of its source. -/
def StartsIn (v : Vocabulary σ) (p : Program σ) (span : Text.Span) : Prop :=
  ∃ i start, p.StartsAt v i start ∧ span.Has (Text.byteWidth (p.source.toList.take start))

/-- An invocation starts in a span wherever a tag is read that does. -/
theorem startsIn_iff {source : String} {path : Option String} {depth : Nat} {p : Program σ}
    (h : compileAt v source path depth = .ok p) (span : Text.Span) :
    p.StartsIn v span ↔ v.ReadsIn source span := by
  have hsource := (template_of_compileAt h).1
  constructor
  · rintro ⟨i, start, hi, hspan⟩
    obtain ⟨t, ht⟩ := (exists_startsAt_iff h).1 ⟨i, hi⟩
    exact ⟨start, t, ht, hsource ▸ hspan⟩
  · rintro ⟨start, t, ht, hspan⟩
    obtain ⟨i, hi⟩ := (exists_startsAt_iff h).2 ⟨t, ht⟩
    exact ⟨i, start, hi, hsource ▸ hspan⟩

/-- No invocation starts in a span of the source that is apart from all calls. -/
theorem WrittenAs.not_startsIn {p : Program σ} {items : List (Markup.Item Markup.Glyph σ)}
    {tail : List Char} (h : p.WrittenAs v items tail) {span : Text.Span}
    (hapart : ∀ call ∈ Markup.Item.callSpans Markup.asWritten 0 items, span.Apart call) :
    ¬ p.StartsIn v span := by
  rintro ⟨i, start, ⟨k, t, -, htag⟩, hspan⟩
  obtain ⟨call, hcall, hhas⟩ := h.tags start t (Token.mem_tags.1 (List.mem_of_getElem? htag))
  exact Text.Span.not_has_of_apart (hapart call hcall) hhas hspan

/-- What comes of a text after a pass over its program. -/
def textAfter (p : Program σ) (text : String) : Except String Flow → String
  | .ok (.complete values) => p.resolve values
  | .ok (.giveBack v) => v.display
  | _ => text

end Program

/-- A context in which it is noted that a text is expanded as a program. -/
def Context.noting {σ : Type} (c : Context σ) (produced : Nat) (p : Program σ) : Context σ :=
  c.onSession (·.record (.expanded produced p.depth p.functionNames))

namespace Run
variable {σ : Type} {c : Clocked (Context σ)} {depth : Nat} {text : String}

/-- What comes of a text depends on how the pass over its program ends. -/
theorem passOver_of_pass {expand : Json → Run σ Json} {p : Program σ}
    {ending : Except String Flow} {looked : Clocked (Context σ)}
    (hpass : pass expand p none c = (some ending, looked)) :
    passOver expand text p c = (some (p.textAfter text ending), looked) := by
  rw [passOver, Timed.bind_some hpass]
  rcases ending with _ | _ | _ | _ <;> rfl

/-- The look at a text with invocations is a pass over its program, which was noted before. -/
theorem expandTextAt_of_compileValue {p : Program σ}
    (hp : Program.compileValue c.state.vocabulary text c.state.program.path depth
      c.state.settings.maxDepth = .ok (some p))
    (hne : p.invocations ≠ []) (hc : c.remaining = none) :
    ∃ ending looked,
      pass (expandWith (expandText (c.state.settings.maxDepth - depth - 1) (depth + 1))) p none
        ⟨none, c.state.noting depth p⟩ = (some ending, looked) ∧
      expandTextAt depth text c = (some (p.textAfter text ending), looked) := by
  have hlt := (Program.compileValue_eq_some_iff.1 hp).2.1
  have hlevels : c.state.settings.maxDepth - depth =
      c.state.settings.maxDepth - depth - 1 + 1 := by omega
  have hquiet : Quiet (pass (expandWith (expandText (c.state.settings.maxDepth - depth - 1)
      (depth + 1))) p none : Run σ _) :=
    .pass (Quiet.rules.expandWith (Quiet.rules.expandText _ _)) p none
  obtain ⟨ending, looked, hpass, -⟩ := hquiet.ends (c := ⟨none, c.state.noting depth p⟩) rfl
  refine ⟨ending, looked, hpass, ?_⟩
  rw [expandTextAt, Timed.bind_some (Timed.get_apply c), hlevels, expandText, runText,
    Timed.bind_some (Timed.get_apply c), hp]
  dsimp only
  rw [if_neg fun hnil => hne (List.isEmpty_iff.1 hnil), record,
    Timed.bind_some (Timed.modify_apply _ c), hc]
  exact passOver_of_pass hpass

end Run

namespace Context
open Markup
variable {σ : Type} {c : Context σ} {values : List Json} {after : Clocked (Context σ)}

/-- The context from which the last look starts has what the run began with. -/
theorem goesOn_of_rootPass (hpass : c.rootPass = (some (.ok (.complete values)), after)) :
    c.GoesOnUnsent after.state ∧ after.remaining = none := by
  obtain ⟨flow, ended, hends, hremaining⟩ := c.exists_rootPass
  have hgoes := (quiet_rootPass c).goesOn ⟨none, c⟩
  cases hpass.symm.trans hends
  rw [← rootPass, hpass] at hgoes
  exact ⟨hgoes, hremaining⟩

/-- A withheld run ends with the last look. -/
theorem run_of_lastLook (hgates : c.passesGates = true) (hwithheld : c.withheld = true)
    (hpass : c.rootPass = (some (.ok (.complete values)), after)) {text : String}
    {looked : Clocked (Context σ)}
    (hlook : Run.lastLook c.program values after = (some text, looked)) :
    c.run = (some text, looked.state) := by
  obtain ⟨_, _, _, hlook', -, hrun⟩ := run_of_completes hgates hpass
  cases hlook.symm.trans hlook'
  rw [hrun, if_pos hwithheld]

/-- A text with a shape that straddles its pieces is looked at as any other text. -/
theorem lastLook_of_straddles (hpass : c.rootPass = (some (.ok (.complete values)), after))
    (hexpand : c.settings.expand = true)
    (hstraddles : Run.straddles (c.program.resolve values) (c.program.template.spans values) =
      true) :
    Run.lastLook c.program values after =
      Run.expandTextAt c.program.depth (c.program.resolve values) after := by
  obtain ⟨hgoes, -⟩ := goesOn_of_rootPass hpass
  rw [Run.lastLook, Timed.bind_some (Timed.get_apply after), hgoes.settings, hexpand, hstraddles]
  rfl

/-- A text that does not run again is that of the run. -/
theorem lastLook_of_not_runsAgain
    (hpass : c.rootPass = (some (.ok (.complete values)), after)) (honce : ¬ c.RunsAgain values) :
    Run.lastLook c.program values after = (some (c.program.resolve values), after) := by
  obtain ⟨hgoes, -⟩ := goesOn_of_rootPass hpass
  rw [Run.lastLook, Timed.bind_some (Timed.get_apply after), hgoes.settings]
  split
  · rename_i hlook
    rw [Bool.and_eq_true] at hlook
    exact Run.expandTextAt_of_not_invokes fun h =>
      honce ⟨hlook.1, hlook.2, hgoes.invokes_iff.1 h⟩
  · rfl

/-- The text of a run that runs again is compiled one level deeper, and what comes of it is what
comes of it after a pass over that program. -/
theorem lastLook_of_runsAgain
    (hpass : c.rootPass = (some (.ok (.complete values)), after)) (hagain : c.RunsAgain values) :
    ∃ q ending looked,
      Program.compileAt c.vocabulary (c.program.resolve values) after.state.program.path
        (c.program.depth + 1) = .ok q ∧
      Run.pass (Run.expandWith (Run.expandText (c.settings.maxDepth - c.program.depth - 1)
        (c.program.depth + 1))) q none ⟨none, after.state.noting c.program.depth q⟩ =
          (some ending, looked) ∧
      Run.lastLook c.program values after =
        (some (q.textAfter (c.program.resolve values) ending), looked) := by
  obtain ⟨hgoes, hremaining⟩ := goesOn_of_rootPass hpass
  obtain ⟨hexpand, hstraddles, hinvokes⟩ := hagain
  obtain ⟨q, hq, hne⟩ := hgoes.invokes_iff.2 hinvokes
  obtain ⟨ending, looked, hending, hlooked⟩ := Run.expandTextAt_of_compileValue hq hne hremaining
  have hcompile := (Program.compileValue_eq_some_iff.1 hq).2.2
  rw [hgoes.vocabulary] at hcompile
  rw [hgoes.settings] at hending
  refine ⟨q, ending, looked, hcompile, hending, ?_⟩
  exact (lastLook_of_straddles hpass hexpand hstraddles).trans hlooked

/-- **What the last look leaves alone.** If the text of a run does not run again, all of it is.
Otherwise a pass is made over the program of the whole text. Wherever a tag is read in it an
invocation starts: of a shape it makes no difference whether it straddles the pieces of the text
or lies wholly in one. What is left alone are the characters that are apart from all calls in the
text: no invocation starts in them, and they stay as they are if none of them is a backslash,
unless a call gives a value back for the whole text. -/
theorem run_lastLook (hgates : c.passesGates = true)
    (hpass : c.rootPass = (some (.ok (.complete values)), after)) :
    let content := c.program.resolve values
    (¬ c.RunsAgain values →
      Run.lastLook c.program values after = (some content, after) ∧ c.run.1 = some content) ∧
    (c.RunsAgain values → ∃ (q : Program σ) (ending : Except String Flow)
        (looked : Clocked (Context σ)) (items : List (Item Glyph σ)) (tail : List Char),
      Program.compileAt c.vocabulary content after.state.program.path (c.program.depth + 1) =
        .ok q ∧
      q.WrittenAs c.vocabulary items tail ∧
      Run.pass (Run.expandWith (Run.expandText (c.settings.maxDepth - c.program.depth - 1)
        (c.program.depth + 1))) q none ⟨none, after.state.noting c.program.depth q⟩ =
          (some ending, looked) ∧
      Run.lastLook c.program values after = (some (q.textAfter content ending), looked) ∧
      c.run.1 = some (q.textAfter content ending) ∧
      ∀ before shape behind, content.toList = before ++ (shape ++ behind) →
        let span := Text.spanAt (Text.byteWidth before) shape
        (q.StartsIn c.vocabulary span ↔ c.vocabulary.ReadsIn content span) ∧
        ((∀ call ∈ Item.callSpans asWritten 0 items, span.Apart call) →
          ¬ q.StartsIn c.vocabulary span ∧
          ('\\' ∉ shape → (∀ v, ending ≠ .ok (.giveBack v)) →
            shape <:+: (q.textAfter content ending).toList))) := by
  intro content
  obtain ⟨text, _, _, hlook, -, hends⟩ := run_of_completes hgates hpass
  have hrun : c.run.1 = some text := congrArg Prod.fst hends
  refine ⟨fun honce => ?_, fun hagain => ?_⟩
  · have honce := lastLook_of_not_runsAgain hpass honce
    cases honce.symm.trans hlook
    exact ⟨honce, hrun⟩
  · obtain ⟨q, ending, looked, hcompile, hending, hlast⟩ := lastLook_of_runsAgain hpass hagain
    have htext : some (q.textAfter content ending) = some text :=
      congrArg Prod.fst (hlast.symm.trans hlook)
    have hsource : q.source = content := (Program.template_of_compileAt hcompile).1
    obtain ⟨items, tail, hwritten⟩ := Program.exists_writtenAs hcompile
    refine ⟨q, ending, looked, items, tail, hcompile, hwritten, hending, hlast,
      hrun.trans htext.symm, ?_⟩
    intro before shape behind hshape span
    refine ⟨Program.startsIn_iff hcompile span, fun hapart =>
      ⟨hwritten.not_startsIn hapart, fun hback hgives => ?_⟩⟩
    have hwhole : shape <:+: content.toList :=
      ⟨before, behind, (List.append_assoc _ _ _).trans hshape.symm⟩
    rw [← hsource] at hshape
    rcases ending with _ | filled | v | _
    · exact hwhole
    · exact hwritten.isInfix hshape hback hapart filled
    · exact absurd rfl (hgives v)
    · exact hwhole

/-- Prose that is shaped like a tag stands before a tag that a literal and a value form together:
the look starts at the tag only. -/
theorem run_lastLook_prose :
    let user : Native Unit := ⟨{ name := "$user" }, false, fun _ => .succeed (.string "Alice")⟩
    let word : Native Unit := ⟨{ name := "$word" }, false, fun _ => .succeed (.string "er")⟩
    let v : Vocabulary Unit := .ofNatives [user, word]
    let i : Invocation Unit := .mk ⟨0, "$word", false, false, none, 0⟩ word none
    let p : Program Unit :=
      ⟨"$shop $us$word", none, "$shop $us[@fn:0]", [i], ⟨[.text "$shop $us", .slot 0]⟩, 0⟩
    let q : Program Unit :=
      ⟨"$shop $user", none, "$shop [@fn:0]",
        [.mk ⟨0, "$user", false, false, none, 1⟩ user none], ⟨[.text "$shop ", .slot 0]⟩, 1⟩
    let c : Context Unit := { program := p, vocabulary := v, withheld := true, memory := () }
    c.passesGates = true ∧
      (∃ after, c.rootPass = (some (.ok (.complete [.string "er"])), after)) ∧
      c.RunsAgain [.string "er"] ∧ Program.compileAt v "$shop $user" none 1 = .ok q ∧
      ¬ q.StartsIn v ⟨0, 5⟩ ∧ q.StartsIn v ⟨6, 11⟩ ∧ c.run.1 = some "$shop Alice" := by
  intro user word v i p q c
  have hgates : c.passesGates = true := rfl
  have hlook : Program.compileAt v "$shop $user" none 1 = .ok q := by
    subst q v user word
    with_unfolding_all rfl
  obtain ⟨after, hpass, hpath⟩ : ∃ after,
      c.rootPass = (some (.ok (.complete [.string "er"])), after) ∧
      after.state.program.path = none := ⟨_, by with_unfolding_all rfl, rfl⟩
  have hcontent : c.program.resolve [.string "er"] = "$shop $user" := by decide +kernel
  have hagain : c.RunsAgain [.string "er"] := by
    refine ⟨rfl, by decide +kernel, q, ?_, List.cons_ne_nil _ _⟩
    exact Program.compileValue_eq_some_iff.2 ⟨by decide +kernel, by decide, hcontent ▸ hlook⟩
  obtain ⟨q', _, _, _, _, hq', -, -, -, -, hshapes⟩ := (run_lastLook hgates hpass).2 hagain
  rw [hpath, hcontent] at hq'
  cases hlook.symm.trans hq'
  rw [hcontent] at hshapes
  have hscan : Token.scan v.words "$shop $user".toList =
      "$shop ".toList.map .char ++ [.tag 6 ⟨false, false, none, "user"⟩] := by decide +kernel
  have hshop := (hshapes [] "$shop".toList " $user".toList rfl).1
  have huser := (hshapes "$shop ".toList "$user".toList [] rfl).1
  refine ⟨hgates, ⟨after, hpass⟩, hagain, hlook, fun h => ?_, huser.2 ?_, by decide +kernel⟩
  · obtain ⟨start, t, ht, -, hstop⟩ := hshop.1 h
    have ht : .tag start t ∈ Token.scan v.words "$shop $user".toList := ht
    rw [hscan, List.mem_append, List.mem_singleton] at ht
    rcases ht with ht | ht
    · obtain ⟨_, -, hchar⟩ := List.mem_map.1 ht
      cases hchar
    · cases ht
      exact absurd hstop (by decide)
  · refine ⟨6, ⟨false, false, none, "user"⟩, ?_, by decide, by decide⟩
    exact hscan.symm ▸ List.mem_append_right _ (List.mem_singleton_self _)

/-- An escaped tag lies wholly in the literal that it is written in, but a literal and a value
form another tag behind it: the look runs both. -/
theorem run_calls_escaped :
    let user : Native Unit := ⟨{ name := "$user" }, false, fun _ => .succeed (.string "Alice")⟩
    let word : Native Unit := ⟨{ name := "$word" }, false, fun _ => .succeed (.string "er")⟩
    let v : Vocabulary Unit := .ofNatives [user, word]
    let i : Invocation Unit := .mk ⟨0, "$word", false, false, none, 0⟩ word none
    let j (index : Nat) : Invocation Unit := .mk ⟨index, "$user", false, false, none, 1⟩ user none
    let p : Program Unit :=
      ⟨"\\$user $us$word", none, "$user $us[@fn:0]", [i], ⟨[.text "$user $us", .slot 0]⟩, 0⟩
    let q : Program Unit :=
      ⟨"$user $user", none, "[@fn:0] [@fn:1]", [j 0, j 1], ⟨[.slot 0, .text " ", .slot 1]⟩, 1⟩
    let c : Context Unit := { program := p, vocabulary := v, withheld := true, memory := () }
    Program.compile v "\\$user $us$word" none = .ok p ∧ c.settings.expand = true ∧
      c.passesGates = true ∧
      (∃ after, c.rootPass = (some (.ok (.complete [.string "er"])), after)) ∧
      p.resolve [.string "er"] = "$user $user" ∧
      ⟨0, 5⟩ ∈ Tag.shapeSpans "$user $user" ∧ ⟨0, 9⟩ ∈ p.template.spans [.string "er"] ∧
      Text.Span.within ⟨0, 5⟩ ⟨0, 9⟩ = true ∧
      Program.compileAt v "$user $user" none 1 = .ok q ∧ q.StartsAt v (j 0) 0 ∧
      (∃ call ∈ c.run.2.session.calls, call.heading = (j 0).heading) ∧
      c.run.1 = some "Alice Alice" := by
  intro user word v i j p q c
  have hcompile : Program.compile v "\\$user $us$word" none = .ok p := by
    subst p i v user word
    with_unfolding_all rfl
  have hlook : Program.compileAt v "$user $user" none 1 = .ok q := by
    subst q v user word
    with_unfolding_all rfl
  have hstarts : q.StartsAt v (j 0) 0 :=
    ⟨0, ⟨false, false, none, "user"⟩, rfl, by decide +kernel⟩
  exact ⟨hcompile, rfl, rfl, ⟨_, by with_unfolding_all rfl⟩, by decide +kernel, by decide +kernel,
    by decide +kernel, by decide +kernel, hlook, hstarts, by decide +kernel, by decide +kernel⟩

end Context

end TagTemplate
