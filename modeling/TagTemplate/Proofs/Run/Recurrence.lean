import Mathlib.Algebra.GroupWithZero.Nat
import TagTemplate.Proofs.Program.Bare
import TagTemplate.Proofs.Run.LastLook
import TagTemplate.Proofs.Tag.Shapes

/-! Functions whose value is their own tag.

Such a value is run one level deeper and has itself as its value again, so each level that is
left takes one call and nothing changes: `Run.expandText_repeating`. The pass of a run over one
such tag thus makes one call more than there are levels. The last look at the text goes by
shapes, not by what was run already: when the shape of the tag goes on beyond the value, it
runs the whole text once more from the first level on, and every tag of the function in it goes
down all the levels a second time. `Context.run_of_repeating` counts the calls in either case. -/
namespace TagTemplate

/-- Whether a native takes no arguments, and every call of it succeeds with the same text. -/
structure Native.Repeats {σ : Type} (n : Native σ) (text : String) : Prop where
  args : n.signature.args = none
  succeeds : ∀ call (c : Clocked (Context σ)), c.remaining = none →
    ((n.behave call).run [] c).1 = some (.ok (.success (.string text)))

/-- Whether an invocation is a call of a native without arguments. -/
structure Invocation.IsBare {σ : Type} (n : Native σ) (i : Invocation σ) : Prop where
  native : i.native = n
  fields : i.fields = none
  name : i.heading.name = n.signature.name

/-- The value of an invocation whose native succeeds with a text. -/
def Heading.gives (text : String) (h : Heading) : Json :=
  if h.negated then .null else .string text

/-- How often a native is called for an invocation of it, if its value takes some more calls. -/
def Heading.calls (more : Nat) (h : Heading) : Nat :=
  if h.negated then 1 else 1 + more

theorem Heading.modify_success_string (text : String) (h : Heading) :
    h.modify (.success (.string text)) = .success (h.gives text) := by
  rw [gives]
  cases hnegated : h.negated <;> simp [modify, hnegated]

/-- The invocations of functions without arguments are bare. -/
theorem Program.isBare_of_compileAt {σ : Type} {v : Vocabulary σ} {source : String}
    {path : Option String} {depth : Nat} {p : Program σ}
    (hcompile : compileAt v source path depth = .ok p) {n : Native σ}
    (hargs : n.signature.args = none) {i : Invocation σ} (hi : i ∈ p.invocations)
    (hnative : i.native = n) : i.IsBare n := by
  obtain ⟨_, _, _, hread⟩ :=
    reads_of_mem_postorder hcompile i (List.mem_flatMap_of_mem hi i.mem_postorder)
  cases hread with
  | mk hresolved harguments =>
    replace hnative : _ = n := hnative
    rw [Invocation.native] at hnative
    subst hnative
    rw [hargs] at harguments
    cases harguments
    exact ⟨rfl, rfl, rfl⟩

/-- A text that begins with a dollar sign is no JSON text. -/
theorem Json.containerIn_dollar (cs : List Char) :
    containerIn (String.ofList ('$' :: cs)) = none := by
  have hdollar : (['$'] : List Char).dropWhile Text.isBlank = ['$'] := by decide
  obtain ⟨front, hfront⟩ : ∃ front, Text.trimStart (cs.reverse ++ ['$']) = front ++ ['$'] := by
    rw [Text.trimStart, List.dropWhile_append, hdollar]
    split
    · exact ⟨[], rfl⟩
    · exact ⟨_, rfl⟩
  have htrim : (Text.trim (String.ofList ('$' :: cs))).toList = '$' :: front.reverse := by
    have hstart : Text.trimStart ('$' :: cs) = '$' :: cs := List.dropWhile_cons_of_neg (by decide)
    rw [Text.trim, String.toList_ofList, String.toList_ofList, Text.trimChars, hstart,
      List.reverse_cons, hfront, List.reverse_append]
    rfl
  have hread : Document.read (Text.trim (String.ofList ('$' :: cs))) = none := by
    rw [Document.read, htrim]
    simp [Document.skipBlanks, Document.readValue, Document.readNumeral, Document.readWhole,
      Number.takeDigits]
  rw [containerIn, Json.read, hread]
  rfl

/-! ### Stretches of calls -/

/-- Whether what lies between two contexts of a run without deadline are some calls of one
native. -/
structure Run.Repeated {σ : Type} (n : Native σ) (times : Nat) (c d : Clocked (Context σ)) :
    Prop where
  remaining : d.remaining = c.remaining
  goesOn : c.state.GoesOnUnsent d.state
  calls : ∃ made : List Call, d.state.session.calls = c.state.session.calls ++ made ∧
    made.length = times ∧ ∀ call ∈ made, call.heading.name = n.signature.name

namespace Run.Repeated
variable {σ : Type} {n : Native σ} {j k : Nat} {a b c : Clocked (Context σ)}

theorem refl (n : Native σ) (c : Clocked (Context σ)) : Repeated n 0 c c :=
  ⟨rfl, .refl _, [], (List.append_nil _).symm, rfl, List.forall_mem_nil _⟩

theorem trans (h : Repeated n j a b) (h' : Repeated n k b c) : Repeated n (j + k) a c := by
  obtain ⟨made, hmade, hlength, hnames⟩ := h.calls
  obtain ⟨more, hmore, hlength', hnames'⟩ := h'.calls
  refine ⟨h'.remaining.trans h.remaining, h.goesOn.trans h'.goesOn, made ++ more, ?_, ?_,
    List.forall_mem_append.2 ⟨hnames, hnames'⟩⟩
  · rw [hmore, hmade, List.append_assoc]
  · rw [List.length_append, hlength, hlength']

/-- A note that tells of no call. -/
theorem record (n : Native σ) (c : Clocked (Context σ)) {e : Event} (hcall : e.call? = none)
    (hsent : e.sent? = none) :
    Repeated n 0 c ⟨c.remaining, c.state.onSession (·.record e)⟩ := by
  refine ⟨rfl, .record _ hsent, [], ?_, rfl, List.forall_mem_nil _⟩
  rw [List.append_nil]
  exact Session.calls_record hcall _

end Run.Repeated

/-- Whether a context has no deadline, and expands values with a vocabulary down to a depth. -/
structure Run.Expands {σ : Type} (v : Vocabulary σ) (maxDepth : Nat) (c : Clocked (Context σ)) :
    Prop where
  remaining : c.remaining = none
  vocabulary : c.state.vocabulary = v
  expand : c.state.settings.expand = true
  maxDepth : c.state.settings.maxDepth = maxDepth

namespace Run
variable {σ : Type} {v : Vocabulary σ} {maxDepth : Nat} {n : Native σ} {text : String}
  {c d : Clocked (Context σ)}

theorem Expands.repeated {times : Nat} (hc : Expands v maxDepth c) (h : Repeated n times c d) :
    Expands v maxDepth d where
  remaining := h.remaining.trans hc.remaining
  vocabulary := h.goesOn.vocabulary.trans hc.vocabulary
  expand := (congrArg Settings.expand h.goesOn.settings).trans hc.expand
  maxDepth := (congrArg Settings.maxDepth h.goesOn.settings).trans hc.maxDepth

/-! ### Executions and passes -/

section
variable (hn : n.Repeats text)
include hn

/-- An invocation of a repeating native is one call. -/
theorem execute_repeating {i : Invocation σ} (hi : i.IsBare n) (hc : c.remaining = none) :
    ∃ d, i.execute c = (some (.ok (.success (i.heading.gives text))), d) ∧ Repeated n 1 c d := by
  obtain ⟨r, d, hexecute, hd⟩ := (Quiet.execute i).ends hc
  have hgoes := (Quiet.execute i).goesOn c
  obtain ⟨heading, native, fields⟩ := i
  obtain ⟨rfl, rfl, hname⟩ : native = n ∧ fields = none ∧ heading.name = n.signature.name :=
    ⟨hi.native, hi.fields, hi.name⟩
  let call : Call := ⟨heading, 0, []⟩
  let called := (c.enter heading).call call native.audited
  have hcall : Invocation.perform heading native [] c = (native.behave call).run [] called :=
    Invocation.perform_of_args_eq_none hn.args [] c
  have hvalue := hn.succeeds call called hc
  have hcalls := (native.behave call).calls_run called
  rw [Invocation.execute, Invocation.finishing_apply, hcall, hvalue] at hexecute
  obtain ⟨hr, rfl⟩ := Prod.mk.inj hexecute
  rw [Invocation.execute, Invocation.finishing_apply, hcall, hvalue] at hgoes ⊢
  refine ⟨_, Prod.ext ?_ rfl, hd.trans hc.symm, hgoes, [call], ?_, rfl,
    List.forall_mem_singleton.2 hname⟩
  · exact congrArg (fun o => some (Except.ok o)) (heading.modify_success_string text)
  · rw [hcalls, Clocked.calls_call, Clocked.calls_enter]

variable {expand : Json → Run σ Json} {more : Nat}
  (hexpand : ∀ {c}, Expands v maxDepth c →
    ∃ d, expand (.string text) c = (some (.string text), d) ∧ Repeated n more c d)
include hexpand

/-- A pass over invocations of a repeating native has all their values. -/
theorem passFrom_repeating (program : Program σ) (edition : Option Nat) (position : Nat)
    {is : List (Invocation σ)} (his : ∀ i ∈ is, i.IsBare n) (hc : Expands v maxDepth c) :
    ∃ d, passFrom expand program edition position is c =
        (some (.ok (.complete (is.map (·.heading.gives text)))), d) ∧
      Repeated n (is.map (·.heading.calls more)).sum c d := by
  induction is generalizing position c with
  | nil => exact ⟨c, rfl, .refl n c⟩
  | cons i is ih =>
    obtain ⟨hi, his⟩ := List.forall_mem_cons.1 his
    obtain ⟨d, hexecute, hone⟩ := execute_repeating hn hi hc.remaining
    have hd := hc.repeated hone
    have hvalue : ∃ e, (if (i.heading.gives text).isNull then pure (i.heading.gives text)
        else expand (i.heading.gives text) : Run σ Json) d =
          (some (i.heading.gives text), e) ∧ Repeated n (i.heading.calls more) c e := by
      rw [Heading.gives, Heading.calls]
      split
      · exact ⟨d, rfl, hone⟩
      · obtain ⟨e, hvalue, hmore⟩ := hexpand hd
        exact ⟨e, hvalue, hone.trans hmore⟩
    obtain ⟨e, hvalue, hfirst⟩ := hvalue
    obtain ⟨f, hrest, hlater⟩ := ih (position + 1) his (hc.repeated hfirst)
    refine ⟨f, ?_, hfirst.trans hlater⟩
    rw [passFrom_of_success hexecute, Timed.bind_some hvalue, passOn, Timed.bind_some hrest]
    rfl

/-- A text in which only a repeating native is invoked is run with all values in place. -/
theorem runText_repeating {depth : Nat} {content : String} {path : Option String}
    {q : Program σ}
    (hcompile : Program.compileValue v content path depth maxDepth = .ok (some q))
    (hne : q.invocations ≠ []) (hq : ∀ i ∈ q.invocations, i.IsBare n)
    (hc : Expands v maxDepth c) :
    ∃ d, runText expand depth content c =
        (some (q.resolve (q.invocations.map (·.heading.gives text))), d) ∧
      Repeated n (q.invocations.map (·.heading.calls more)).sum c d := by
  -- A native may have replaced the program of the context, and its path with it.
  have hvalue := Program.compileValue_path c.state.program.path hcompile
  rw [← hc.vocabulary, ← hc.maxDepth] at hvalue
  let noted : Clocked (Context σ) := ⟨c.remaining, c.state.noting depth q⟩
  have hnoted : Repeated n 0 c noted := .record n c rfl rfl
  obtain ⟨d, hpass, hcalls⟩ := passFrom_repeating hn hexpand
    { q with path := c.state.program.path } none 0 hq (hc.repeated hnoted)
  refine ⟨d, ?_, (Nat.zero_add _ ▸ hnoted.trans hcalls :)⟩
  rw [runText, Timed.bind_some (Timed.get_apply c), hvalue]
  dsimp only
  rw [if_neg fun h => hne (List.isEmpty_iff.1 h)]
  exact passOver_of_pass (c := noted) hpass

end

/-! ### Down the levels -/

/-- A string with a shape that is no JSON text is run as it is. -/
theorem expandWith_string {textAt : String → Run σ String} {result : String}
    (hshape : Tag.hasShape text = true) (hplain : Json.containerIn text = none)
    (hexpand : c.state.settings.expand = true) (h : textAt text c = (some result, d)) :
    expandWith textAt (.string text) c = (some (.string result), d) := by
  rw [expandWith, Timed.bind_some (Timed.get_apply c), if_pos hexpand, Json.eachString,
    expandString, hshape, hplain]
  exact Timed.bind_some h

variable {word : List Char} (hn : n.Repeats (String.ofList ('$' :: word)))
  (htag : Tag.tagAt v.words (Tag.bare word).spelling = some (Tag.bare word))
  (hresolve : v.resolve (String.ofList word) = some n)
  (hshape : Tag.hasShape (String.ofList ('$' :: word)) = true)
include hn htag hresolve hshape

/-- **A repeating value is run once on each level that is left**, and stays what it is. -/
theorem expandText_repeating (levels depth : Nat) (hlevels : depth + levels = maxDepth)
    (hc : Expands v maxDepth c) :
    ∃ d, expandText levels depth (String.ofList ('$' :: word)) c =
        (some (String.ofList ('$' :: word)), d) ∧ Repeated n levels c d := by
  induction levels generalizing depth c with
  | zero => exact ⟨c, rfl, .refl n c⟩
  | succ levels ih =>
    have hcompile := Program.compileAt_bare htag hresolve hn.args none (depth + 1)
    have hvalue := Program.compileValue_eq_some_iff.2
      ⟨hshape, show depth < maxDepth by omega, hcompile⟩
    have hexpand {c : Clocked (Context σ)} (hc : Expands v maxDepth c) :
        ∃ d, expandWith (expandText levels (depth + 1)) (.string (String.ofList ('$' :: word))) c =
          (some (.string (String.ofList ('$' :: word))), d) ∧ Repeated n levels c d := by
      obtain ⟨d, hd, hcalls⟩ := ih (depth + 1) (by omega) hc
      exact ⟨d, expandWith_string hshape (Json.containerIn_dollar word) hc.expand hd, hcalls⟩
    obtain ⟨d, hrun, hcalls⟩ := runText_repeating hn hexpand hvalue (List.cons_ne_nil _ _)
      (List.forall_mem_singleton.2 ⟨rfl, rfl, rfl⟩) hc
    have hwhole : (Program.ofDraft (String.ofList ('$' :: word)) none (depth + 1)
        (({} : Draft σ).invoke (.mk ((Tag.bare word).heading n 0 (depth + 1)) n none))).resolve
          [.string (String.ofList ('$' :: word))] = String.ofList ('$' :: word) := by
      show String.join [String.ofList ('$' :: word)] = String.ofList ('$' :: word)
      exact String.empty_append
    refine ⟨d, ?_, ?_⟩
    · exact hrun.trans (congrArg (fun s => (some s, d)) hwhole)
    · rw [Nat.add_comm]
      exact hcalls

end Run

/-! ### Shapes -/

/-- A text in which a shape straddles the pieces has a shape. -/
theorem Run.hasShape_of_straddles {text : String} {pieces : List Text.Span}
    (h : straddles text pieces = true) : Tag.hasShape text = true := by
  cases hshape : Tag.hasShape text with
  | true => rfl
  | false =>
    rw [straddles, Tag.shapeSpans_eq_nil_iff.2 hshape] at h
    cases h

/-! ### Runs -/

namespace Context
variable {σ : Type} {natives : List (Native σ)} {n : Native σ} {c : Context σ}

/-- Where the text of a program is its source, and its functions take no arguments, the text
runs again if a shape straddles its pieces, unless there is no level left for it. -/
theorem runsAgain_iff_of_resolve_eq {values : List Json} {source : String} {path : Option String}
    (hcompile : Program.compile c.vocabulary source path = .ok c.program)
    (hargs : ∀ i ∈ c.program.invocations, i.native.signature.args = none)
    (hne : c.program.invocations ≠ []) (hexpand : c.settings.expand = true)
    (hsource : c.program.resolve values = source) :
    c.RunsAgain values ↔
      (Run.straddles source (c.program.template.spans values) = true ∧ 0 < c.settings.maxDepth) := by
  have hdepth : c.program.depth = 0 := (Program.depth_of_compileAt hcompile).1
  rw [RunsAgain, hsource, hdepth]
  constructor
  · rintro ⟨-, hstraddles, q, hq, -⟩
    exact ⟨hstraddles, (Program.compileValue_eq_some_iff.1 hq).2.1⟩
  · rintro ⟨hstraddles, hlevels⟩
    have hagain := Program.compileAt_atDepth hcompile hargs 1
    have hvalue := Program.compileValue_eq_some_iff.2
      ⟨Run.hasShape_of_straddles hstraddles, hlevels, hagain⟩
    refine ⟨hexpand, hstraddles, _, Program.compileValue_path _ hvalue, ?_⟩
    exact fun h => hne (List.map_eq_nil_iff.1 h)

/-- Whether a run calls one native and no other, so many times. -/
def CallsOnly (c : Context σ) (n : Native σ) (times : Nat) : Prop :=
  ∃ made : List Call, c.run.2.session.calls = c.session.calls ++ made ∧ made.length = times ∧
    ∀ call ∈ made, call.heading.name = n.signature.name

section
variable {word : List Char} (hplain : ∀ ch ∈ word, Text.isPlain ch = true)
  (hshape : Tag.hasShape (String.ofList ('$' :: word)) = true)
  (hvocabulary : c.vocabulary = .ofNatives natives)
  (hresolve : c.vocabulary.resolve (String.ofList word) = some n)
  (hn : n.Repeats (String.ofList ('$' :: word)))
include hplain hshape hresolve hvocabulary hn

/-- In every context that a run comes to, the value of a repeating native takes one call for
each level that is left. -/
theorem expandText_of_repeating {levels depth : Nat}
    (hlevels : depth + levels = c.settings.maxDepth) {d : Clocked (Context σ)}
    (hd : Run.Expands c.vocabulary c.settings.maxDepth d) :
    ∃ e, Run.expandText levels depth (String.ofList ('$' :: word)) d =
        (some (String.ofList ('$' :: word)), e) ∧ Run.Repeated n levels d e := by
  have hne : word ≠ [] := by
    rintro rfl
    exact absurd hshape (by decide)
  have hmem : word ∈ c.vocabulary.words := by
    rw [hvocabulary] at hresolve ⊢
    exact Vocabulary.mem_words_of_resolve hplain hne hresolve
  have hordered : Vocabulary.LongestFirst c.vocabulary.words :=
    hvocabulary ▸ Vocabulary.longestFirst_wordsOf _
  have htag := Tag.tagAt_bare hordered hmem hplain hne
  exact Run.expandText_repeating hn htag hresolve hshape levels depth hlevels hd

/-- The text of a run over one tag of a repeating native, before the last look at it, is made
with one call more than there are levels. -/
theorem exists_pass_of_repeating {source : String} {path : Option String} {i : Invocation σ}
    (hcompile : Program.compile c.vocabulary source path = .ok c.program)
    (hone : c.program.invocations = [i]) (hi : i.native = n) (hnegated : i.heading.negated = false)
    (hexpand : c.settings.expand = true) :
    ∃ after, c.rootPass =
        (some (.ok (.complete [.string (String.ofList ('$' :: word))])), after) ∧
      Run.Repeated n (c.settings.maxDepth + 1) ⟨none, c⟩ after := by
  have hdepth : c.program.depth = 0 := (Program.depth_of_compileAt hcompile).1
  have hvalue {d : Clocked (Context σ)} (hd : Run.Expands c.vocabulary c.settings.maxDepth d) :
      ∃ e, Run.expandAt 0 (.string (String.ofList ('$' :: word))) d =
        (some (.string (String.ofList ('$' :: word))), e) ∧
        Run.Repeated n c.settings.maxDepth d e := by
    obtain ⟨e, he, hcalls⟩ := expandText_of_repeating hplain hshape hvocabulary hresolve hn
      (Nat.zero_add _) hd
    have hlook : Run.expandTextAt 0 (String.ofList ('$' :: word)) d =
        (some (String.ofList ('$' :: word)), e) := by
      rw [Run.expandTextAt, Timed.bind_some (Timed.get_apply d), hd.maxDepth]
      exact he
    exact ⟨e, Run.expandWith_string hshape (Json.containerIn_dollar _) hd.expand hlook, hcalls⟩
  have hbare : ∀ j ∈ [i], j.IsBare n := by
    intro j hj
    obtain rfl := List.mem_singleton.1 hj
    exact Program.isBare_of_compileAt hcompile hn.args (hone ▸ hj) hi
  have hc : Run.Expands c.vocabulary c.settings.maxDepth ⟨none, c⟩ := ⟨rfl, rfl, hexpand, rfl⟩
  obtain ⟨after, hpass, hcalls⟩ := Run.passFrom_repeating hn hvalue c.program (some c.edition) 0
    hbare hc
  refine ⟨after, ?_, ?_⟩
  · rw [rootPass, Run.pass, hdepth, hone, hpass, List.map_singleton, Heading.gives, hnegated]
    rfl
  · rw [List.map_singleton, Heading.calls, hnegated] at hcalls
    exact (Nat.add_comm _ _ ▸ hcalls :)

section
variable {source : String} {path : Option String} {i : Invocation σ}
  (hcompile : Program.compile c.vocabulary source path = .ok c.program)
  (hone : c.program.invocations = [i]) (hi : i.native = n) (hnegated : i.heading.negated = false)
  (hgates : c.passesGates = true) (hexpand : c.settings.expand = true)
  (hwithheld : c.withheld = true)
include hcompile hone hi hnegated hgates hexpand hwithheld

/-- A run whose text does not run again makes the calls of its pass. -/
theorem run_of_repeating_once (honce : ¬ c.RunsAgain [.string (String.ofList ('$' :: word))]) :
    c.run.1 = some (c.program.resolve [.string (String.ofList ('$' :: word))]) ∧
      c.CallsOnly n (c.settings.maxDepth + 1) := by
  obtain ⟨after, hpass, hcalls⟩ := exists_pass_of_repeating hplain hshape hvocabulary hresolve hn
    hcompile hone hi hnegated hexpand
  rw [CallsOnly, run_of_lastLook hgates hwithheld hpass (lastLook_of_not_runsAgain hpass honce)]
  exact ⟨rfl, hcalls.calls⟩

/-- A run whose text runs again, to a program in which only the repeating native is invoked,
makes the calls of its pass and those of that program. -/
theorem run_of_repeating_again (hagain : c.RunsAgain [.string (String.ofList ('$' :: word))])
    {q : Program σ}
    (hq : Program.compileAt c.vocabulary
      (c.program.resolve [.string (String.ofList ('$' :: word))]) path 1 = .ok q)
    (hall : ∀ j ∈ q.invocations, j.native = n) :
    c.run.1 = some (q.resolve (q.invocations.map
        (·.heading.gives (String.ofList ('$' :: word))))) ∧
      c.CallsOnly n (c.settings.maxDepth + 1 +
        (q.invocations.map (·.heading.calls (c.settings.maxDepth - 1))).sum) := by
  obtain ⟨after, hpass, hcalls⟩ := exists_pass_of_repeating hplain hshape hvocabulary hresolve hn
    hcompile hone hi hnegated hexpand
  obtain ⟨-, hstraddles, q₀, hq₀, hne⟩ := hagain
  have hdepth : c.program.depth = 0 := (Program.depth_of_compileAt hcompile).1
  rw [hdepth] at hq₀
  obtain ⟨hcontent, hlevels, -⟩ := Program.compileValue_eq_some_iff.1 hq₀
  have hvalue := Program.compileValue_eq_some_iff.2 ⟨hcontent, hlevels, hq⟩
  obtain rfl : { q₀ with path := path } = q :=
    Option.some.inj (Except.ok.inj ((Program.compileValue_path path hq₀).symm.trans hvalue))
  have hd : Run.Expands c.vocabulary c.settings.maxDepth after :=
    Run.Expands.repeated ⟨rfl, rfl, hexpand, rfl⟩ hcalls
  have hlater {d : Clocked (Context σ)} (hd : Run.Expands c.vocabulary c.settings.maxDepth d) :
      ∃ e, Run.expandWith (Run.expandText (c.settings.maxDepth - 1) 1)
        (.string (String.ofList ('$' :: word))) d =
        (some (.string (String.ofList ('$' :: word))), e) ∧
        Run.Repeated n (c.settings.maxDepth - 1) d e := by
    obtain ⟨e, he, hcalls⟩ := expandText_of_repeating hplain hshape hvocabulary hresolve hn
      (Nat.add_sub_cancel' hlevels) hd
    exact ⟨e, Run.expandWith_string hshape (Json.containerIn_dollar _) hd.expand he, hcalls⟩
  have hbare : ∀ j ∈ q₀.invocations, j.IsBare n := fun j hj =>
    Program.isBare_of_compileAt hq hn.args hj (hall j hj)
  obtain ⟨e, hrun, hagain⟩ := Run.runText_repeating hn hlater hvalue hne hbare hd
  have hlook : Run.lastLook c.program [.string (String.ofList ('$' :: word))] after =
      (some (q₀.resolve (q₀.invocations.map
        (·.heading.gives (String.ofList ('$' :: word))))), e) := by
    rw [lastLook_of_straddles hpass hexpand hstraddles, hdepth, Run.expandTextAt,
      Timed.bind_some (Timed.get_apply after), hd.maxDepth]
    have hsucc : c.settings.maxDepth - 0 = c.settings.maxDepth - 1 + 1 := by omega
    rw [hsucc, Run.expandText]
    exact hrun
  rw [CallsOnly, run_of_lastLook hgates hwithheld hpass hlook]
  exact ⟨rfl, (hcalls.trans hagain).calls⟩

end

/-- **How often a native is called whose value is its own tag.** In a withheld run over one
such tag, whatever text stands around it, the native is called once, and once more on each level
below the greatest depth; its text stays as it is. That is all unless the text of the run runs
once more. If it does, and nothing else is invoked in it, each tag in it that is not negated is
called once more on every level. Where the text is the source itself there is one such tag, so
what remains is the question whether some shape straddles the pieces of the text. -/
theorem run_of_repeating {source : String} {path : Option String} {i : Invocation σ}
    (hcompile : Program.compile c.vocabulary source path = .ok c.program)
    (hone : c.program.invocations = [i]) (hi : i.native = n) (hnegated : i.heading.negated = false)
    (hgates : c.passesGates = true) (hexpand : c.settings.expand = true)
    (hwithheld : c.withheld = true) :
    let text := Json.string (String.ofList ('$' :: word))
    let content := c.program.resolve [text]
    (¬ c.RunsAgain [text] →
      c.run.1 = some content ∧ c.CallsOnly n (c.settings.maxDepth + 1)) ∧
    (∀ q, c.RunsAgain [text] → Program.compileAt c.vocabulary content path 1 = .ok q →
      (∀ j ∈ q.invocations, j.native = n) →
      c.run.1 = some (q.resolve (q.invocations.map fun j =>
        if j.heading.negated then .null else text)) ∧
      c.CallsOnly n (c.settings.maxDepth + 1 + (q.invocations.map fun j =>
        if j.heading.negated then 1 else c.settings.maxDepth).sum)) ∧
    (content = source → c.run.1 = some source ∧
      c.CallsOnly n
        (if Run.straddles source (c.program.template.spans [text]) = true ∧
            0 < c.settings.maxDepth
          then 2 * c.settings.maxDepth + 1 else c.settings.maxDepth + 1)) := by
  intro text content
  have hargs : ∀ j ∈ c.program.invocations, j.native.signature.args = none := by
    rw [hone]
    exact List.forall_mem_singleton.2 (hi ▸ hn.args)
  refine ⟨run_of_repeating_once hplain hshape hvocabulary hresolve hn hcompile hone hi hnegated
    hgates hexpand hwithheld, fun q hagain hq hall => ?_, fun hsource => ?_⟩
  · obtain ⟨htext, hcalls⟩ := run_of_repeating_again hplain hshape hvocabulary hresolve hn hcompile
      hone hi hnegated hgates hexpand hwithheld hagain hq hall
    obtain ⟨-, -, _, hlevels, -⟩ := hagain
    have hlevels := (Program.compileValue_eq_some_iff.1 hlevels).2.1
    have hcount (h : Heading) : h.calls (c.settings.maxDepth - 1) =
        if h.negated then 1 else c.settings.maxDepth := by
      rw [Heading.calls, Nat.add_sub_cancel' (Nat.one_le_of_lt hlevels)]
    simp only [hcount] at hcalls
    exact ⟨htext, hcalls⟩
  · have hagain_iff := runsAgain_iff_of_resolve_eq hcompile hargs
      (hone ▸ List.cons_ne_nil i []) hexpand hsource
    split
    · rename_i hagain
      have hq := Program.compileAt_atDepth hcompile hargs 1
      rw [← hsource] at hq
      have hall : ∀ j ∈ c.program.invocations.map (·.atDepth 1), j.native = n := by
        rw [hone]
        exact List.forall_mem_singleton.2 ((i.native_atDepth 1).trans hi)
      obtain ⟨htext, hcalls⟩ := run_of_repeating_again hplain hshape hvocabulary hresolve hn
        hcompile hone hi hnegated hgates hexpand hwithheld (hagain_iff.2 hagain) hq hall
      have hgives : (c.program.invocations.map (·.atDepth 1)).map
          (·.heading.gives (String.ofList ('$' :: word))) = [text] := by
        simp [hone, Heading.gives, hnegated, text]
      have hcount : c.settings.maxDepth + 1 + ((c.program.invocations.map (·.atDepth 1)).map
          (·.heading.calls (c.settings.maxDepth - 1))).sum = 2 * c.settings.maxDepth + 1 := by
        simp only [hone, List.map_singleton, List.sum_singleton, Heading.calls,
          Invocation.negated_atDepth, hnegated, Bool.false_eq_true, if_false]
        omega
      rw [hcount] at hcalls
      rw [hgives] at htext
      exact ⟨htext.trans (congrArg some hsource), hcalls⟩
    · rename_i honce
      obtain ⟨htext, hcalls⟩ := run_of_repeating_once hplain hshape hvocabulary hresolve hn hcompile
        hone hi hnegated hgates hexpand hwithheld fun h => honce (hagain_iff.1 h)
      exact ⟨htext.trans (congrArg some hsource), hcalls⟩

end

/-- A tag in prose: the native is called three times when two levels are left. -/
theorem run_of_repeating_prose :
    let loop : Native Unit := ⟨{ name := "$loop" }, false, fun _ => .succeed (.string "$loop")⟩
    let i : Invocation Unit := .mk ⟨0, "$loop", false, false, none, 0⟩ loop none
    let p : Program Unit :=
      ⟨"a $loop b", none, "a [@fn:0] b", [i], ⟨[.text "a ", .slot 0, .text " b"]⟩, 0⟩
    let c : Context Unit := { program := p
                              vocabulary := .ofNatives [loop]
                              settings := { maxDepth := 2 }
                              withheld := true
                              memory := () }
    Program.compile c.vocabulary "a $loop b" none = .ok p ∧
      c.vocabulary.resolve "loop" = some loop ∧ loop.Repeats "$loop" ∧ c.passesGates = true ∧
      c.settings.expand = true ∧ c.withheld = true ∧
      c.run.1 = some "a $loop b" ∧ c.CallsOnly loop 3 := by
  intro loop i p c
  have hcompile : Program.compile c.vocabulary "a $loop b" none = .ok c.program := by
    subst c p i loop
    with_unfolding_all rfl
  have hresolve : c.vocabulary.resolve (String.ofList ['l', 'o', 'o', 'p']) = some loop := by
    subst c p i loop
    with_unfolding_all rfl
  have hrepeats : loop.Repeats (String.ofList ('$' :: ['l', 'o', 'o', 'p'])) :=
    ⟨rfl, fun _ _ _ => rfl⟩
  have hsource : c.program.resolve [.string (String.ofList ('$' :: ['l', 'o', 'o', 'p']))] =
      "a $loop b" := by decide +kernel
  have hplain : ∀ ch ∈ ['l', 'o', 'o', 'p'], Text.isPlain ch = true :=
    List.all_eq_true.1 (by decide)
  obtain ⟨-, -, hlast⟩ := run_of_repeating hplain (by decide) rfl hresolve hrepeats hcompile
    rfl rfl rfl rfl rfl rfl
  obtain ⟨htext, hcalls⟩ := hlast hsource
  rw [if_neg (by decide +kernel)] at hcalls
  exact ⟨hcompile, hresolve, hrepeats, rfl, rfl, rfl, htext, hcalls⟩

/-- The letters behind the tag go on with its shape: the text runs once more, and the native is
called three times although one level is left. -/
theorem run_calls_twice_joined :
    let loop : Native Unit := ⟨{ name := "$loop" }, false, fun _ => .succeed (.string "$loop")⟩
    let i : Invocation Unit := .mk ⟨0, "$loop", false, false, none, 0⟩ loop none
    let p : Program Unit := ⟨"$looping", none, "[@fn:0]ing", [i], ⟨[.slot 0, .text "ing"]⟩, 0⟩
    let c : Context Unit := { program := p
                              vocabulary := .ofNatives [loop]
                              settings := { maxDepth := 1 }
                              withheld := true
                              memory := () }
    Program.compile c.vocabulary "$looping" none = .ok p ∧
      c.vocabulary.tags? "$looping" = some [(⟨0, 5⟩, ⟨false, false, none, "loop"⟩)] ∧
      loop.Repeats "$loop" ∧ c.passesGates = true ∧ c.settings.expand = true ∧ c.withheld = true ∧
      (c.run.2.session.calls.filter (·.heading.name == "$loop")).length = 3 ∧
      ¬ 3 ≤ c.settings.maxDepth + 1 := by
  intro loop i p c
  have hcompile : Program.compile c.vocabulary "$looping" none = .ok p := by
    subst c p i loop
    with_unfolding_all rfl
  exact ⟨hcompile, by decide +kernel, ⟨rfl, fun _ _ _ => rfl⟩, rfl, rfl, rfl, by decide +kernel,
    by decide⟩

end Context

end TagTemplate
