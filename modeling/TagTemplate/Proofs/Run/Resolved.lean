import TagTemplate.Native.Builtin
import TagTemplate.Proofs.Program.Depth
import TagTemplate.Proofs.Run.Expand
import TagTemplate.Proofs.Run.Sending

/-! Runs whose text is that of the program.

When all top-level invocations of a withheld run succeed with values without dollar
signs, the pass has the values as they are, and what is left is the last look at the text
that they are put into. Literals and values may form a tag together there, so the text
may run again. `Context.run_eq_resolve_iff`: the text is the program's own and nothing
but the program is executed exactly when that does not happen. -/
namespace TagTemplate

namespace Program
variable {σ : Type} {v : Vocabulary σ} {value : String} {depth maxDepth : Nat}

/-- The path of a value plays no part in whether it compiles. -/
theorem compileValue_path {path : Option String} {p : Program σ} (path' : Option String)
    (h : compileValue v value path depth maxDepth = .ok (some p)) :
    compileValue v value path' depth maxDepth = .ok (some { p with path := path' }) := by
  obtain ⟨hshape, hlt, hp⟩ := compileValue_eq_some_iff.1 h
  obtain ⟨draft, hdraft, rfl⟩ := compileAt_eq_ok_iff.1 hp
  refine compileValue_eq_some_iff.2 ⟨hshape, hlt, ?_⟩
  exact compileAt_eq_ok_iff.2 ⟨draft, hdraft, rfl⟩

theorem functionNames_ne_nil {p : Program σ} (h : p.invocations ≠ []) : p.functionNames ≠ [] := by
  obtain ⟨i, hi⟩ := List.exists_mem_of_ne_nil _ h
  exact List.ne_nil_of_mem (List.mem_map_of_mem (mem_walk hi))

end Program

/-! ### Texts that run -/

/-- Whether a text that was produced at a depth compiles to a program with invocations. -/
def Context.Invokes {σ : Type} (c : Context σ) (depth : Nat) (text : String) : Prop :=
  ∃ p, Program.compileValue c.vocabulary text c.program.path depth c.settings.maxDepth =
      .ok (some p) ∧ p.invocations ≠ []

namespace Context
variable {σ : Type} {P : Event → Prop} {c c' : Context σ} {depth : Nat} {text : String}

theorem Invokes.of_eq (h : c.Invokes depth text) (hvocabulary : c'.vocabulary = c.vocabulary)
    (hsettings : c'.settings = c.settings) : c'.Invokes depth text := by
  obtain ⟨p, hp, hne⟩ := h
  refine ⟨{ p with path := c'.program.path }, ?_, hne⟩
  rw [hvocabulary, hsettings]
  exact Program.compileValue_path _ hp

/-- Natives may replace the program, but not what a text compiles to. -/
theorem GoesOn.invokes_iff (h : c.GoesOn P c') : c'.Invokes depth text ↔ c.Invokes depth text :=
  ⟨fun hc => hc.of_eq h.vocabulary.symm h.settings.symm, fun hc => hc.of_eq h.vocabulary h.settings⟩

end Context

namespace Run
variable {σ : Type} {c : Clocked (Context σ)} {depth : Nat} {text : String}

/-- A text without invocations is left alone. -/
theorem expandTextAt_of_not_invokes (h : ¬ c.state.Invokes depth text) :
    expandTextAt depth text c = (some text, c) := by
  rw [expandTextAt, Timed.bind_some (Timed.get_apply c)]
  generalize c.state.settings.maxDepth - depth = levels
  cases levels with
  | zero => rfl
  | succ levels =>
    rw [expandText, runText, Timed.bind_some (Timed.get_apply c)]
    rcases hp : Program.compileValue c.state.vocabulary text c.state.program.path depth
      c.state.settings.maxDepth with e | _ | p
    · rfl
    · rfl
    · have hnil : p.invocations = [] := Classical.not_not.1 fun hne => h ⟨p, hp, hne⟩
      dsimp only
      rw [hnil]
      rfl

/-- Expanding a text with invocations finds some function. -/
theorem expandTextAt_of_invokes (h : c.state.Invokes depth text) :
    ∃ name names, (expandTextAt depth text c).2.state.session.discovered =
      c.state.session.discovered ++ name :: names := by
  obtain ⟨p, hp, hne⟩ := h
  obtain ⟨-, hlt, -⟩ := Program.compileValue_eq_some_iff.1 hp
  obtain ⟨levels, hlevels⟩ : ∃ levels, c.state.settings.maxDepth - depth = levels + 1 :=
    ⟨c.state.settings.maxDepth - depth - 1, by omega⟩
  rw [expandTextAt, Timed.bind_some (Timed.get_apply c), hlevels, expandText, runText,
    Timed.bind_some (Timed.get_apply c), hp]
  dsimp only
  rw [if_neg fun hnil => hne (List.isEmpty_iff.1 hnil), record,
    Timed.bind_some (Timed.modify_apply _ c)]
  have hpass : Quiet (passOver (expandWith (expandText levels (depth + 1))) text p) :=
    .passOver (Quiet.rules.expandWith (Quiet.rules.expandText levels (depth + 1))) text p
  obtain ⟨later, hlater⟩ := Context.GoesOn.discovered (hpass.goesOn _)
  obtain ⟨name, names, hnames⟩ := List.exists_cons_of_ne_nil (Program.functionNames_ne_nil hne)
  refine ⟨name, names ++ later, ?_⟩
  rw [hlater, Context.onSession, Session.discovered_record, Event.found, hnames, List.append_assoc,
    List.cons_append]

end Run

/-! ### Passes -/

/-- Invocations all succeed, one after another, with some values. -/
inductive Succeed {σ : Type} :
    List (Invocation σ) → Clocked (Context σ) → List Json → Clocked (Context σ) → Prop
  | nil {c} : Succeed [] c [] c
  | cons {i is c v d vs e} (first : i.execute c = (some (.ok (.success v)), d))
      (rest : Succeed is d vs e) : Succeed (i :: is) c (v :: vs) e

namespace Succeed
variable {σ : Type} {is : List (Invocation σ)} {c d : Clocked (Context σ)} {values : List Json}

/-- A pass over invocations that succeed has their values, if expanding leaves these alone. -/
theorem passFrom_eq (h : Succeed is c values d) {expand : Json → Run σ Json}
    (hexpand : ∀ v ∈ values, expand v = pure v) (program : Program σ) (edition : Option Nat)
    (position : Nat) :
    Run.passFrom expand program edition position is c = (some (.ok (.complete values)), d) := by
  induction h generalizing position with
  | nil => rfl
  | cons first rest ih =>
    obtain ⟨hv, hvs⟩ := List.forall_mem_cons.1 hexpand
    rw [Run.passFrom, Timed.bind_some first]
    dsimp only
    rw [hv, ite_self, Timed.bind_some (Timed.pure_apply _ _), Timed.bind_some (ih hvs _)]
    rfl

/-- What holds of every execution holds of all in a row. -/
theorem relates (h : Succeed is c values d) {F : Frame σ} (hF : ∀ i ∈ is, F.Keeps i.execute) :
    F.relates c.state d.state := by
  induction h with
  | nil => exact F.refl _
  | @cons i is c v d vs e first rest ih =>
    obtain ⟨hi, his⟩ := List.forall_mem_cons.1 hF
    have hfirst := hi c
    rw [first] at hfirst
    exact F.trans hfirst (ih his)

end Succeed

/-! ### Whole runs -/

/-- Whether an event may happen while a program is executed and nothing else is: the calls
are those of its invocations, and nothing is expanded. -/
def Event.Within {σ : Type} (p : Program σ) : Event → Prop
  | .called call _ _ _ => ∃ i ∈ p.walk, i.heading = call.heading
  | .expanded .. => False
  | _ => True

theorem Event.Within.found_eq_nil {σ : Type} {p : Program σ} {e : Event} (h : e.Within p) :
    e.found = [] := by
  cases e <;> first | exact h.elim | rfl

/-- The frame of the events of a program. -/
def Frame.ofProgram {σ : Type} (p : Program σ) : Frame σ :=
  .ofEvents σ (Event.Within p) (fun h => ∃ i ∈ p.walk, i.heading = h) (fun _ => trivial)
    (fun _ => trivial) fun _ _ _ _ h => h

theorem Frame.keeps_of_mem_walk {σ : Type} {p : Program σ} {i : Invocation σ} (hi : i ∈ p.walk) :
    (Frame.ofProgram p).Keeps i.execute := by
  have hallows : (Frame.ofProgram p).Allows (· ∈ p.walk) :=
    ⟨fun _ hi _ hj => Program.nested_mem_walk hi hj, fun i hi => ⟨i, hi, rfl⟩⟩
  exact Frame.keeps_execute hallows i hi

namespace Run
variable {σ : Type}

/-- A withheld run ends with the last look at its text. -/
theorem conclude_eq (program : Program σ) (values : List Json) {c : Clocked (Context σ)}
    (hwithheld : c.state.withheld = true) :
    conclude program values c =
      if c.state.settings.expand &&
          straddles (program.resolve values) (program.template.spans values) then
        expandTextAt program.depth (program.resolve values) c
      else (some (program.resolve values), c) := by
  have hlook : lastLook program values c =
      if c.state.settings.expand &&
          straddles (program.resolve values) (program.template.spans values) then
        expandTextAt program.depth (program.resolve values) c
      else (some (program.resolve values), c) := by
    rw [lastLook, Timed.bind_some (Timed.get_apply c)]
    split <;> rfl
  have hlooked : (lastLook program values c).2.state.withheld = true :=
    (congrArg Destination.withheld ((quiet_lastLook program values).destination_eq c)).trans
      hwithheld
  rw [conclude_eq_bind, ← hlook]
  rcases h : lastLook program values c with ⟨_ | text, d⟩
  · exact Timed.bind_none h
  · rw [h] at hlooked
    rw [Timed.bind_some h, Timed.bind_some (Timed.get_apply d), if_pos hlooked]
    rfl

end Run

namespace Context
variable {σ : Type} {c : Context σ} {values : List Json} {after : Clocked (Context σ)}

/-- A run whose pass has all its values comes to its conclusion. -/
theorem run_of_pass (hgates : c.passesGates = true)
    (hpass : Run.pass (Run.expandAt c.program.depth) c.program (some c.edition) ⟨none, c⟩ =
      (some (.ok (.complete values)), after)) :
    c.run = ((Run.conclude c.program values after).1,
      (Run.conclude c.program values after).2.state) := by
  rw [run_of_rootPass hgates hpass, Run.afterPass, Timed.bind_pure_apply]
  cases (Run.conclude c.program values after).1 <;> rfl

/-- Whether the text of a program, with some values in it, is run once more: a tag shape
straddles the pieces of the text, and one level deeper the text compiles to a program with
invocations. -/
def RunsAgain (c : Context σ) (values : List Json) : Prop :=
  c.settings.expand = true ∧
    Run.straddles (c.program.resolve values) (c.program.template.spans values) = true ∧
    c.Invokes c.program.depth (c.program.resolve values)

/-- **The text of a run is that of its program.** When the top-level invocations of a
withheld run succeed with values whose text has no dollar sign, the run ends with the text
of the program with these values in it, finds nothing, and executes only the invocations of
the program, exactly when that text does not run once more. -/
theorem run_eq_resolve_iff (hgates : c.passesGates = true) (hwithheld : c.withheld = true)
    (hpass : Succeed c.program.invocations ⟨none, c⟩ values after)
    (hplain : ∀ v ∈ values, '$' ∉ v.display.toList) :
    (c.run.1 = some (c.program.resolve values) ∧
        c.run.2.session.discovered = c.session.discovered ∧
        c.GoesOn (Event.Within c.program) c.run.2) ↔
      ¬ c.RunsAgain values := by
  have hgoes : c.GoesOn (Event.Within c.program) after.state :=
    hpass.relates (F := Frame.ofProgram c.program) fun i hi =>
      Frame.keeps_of_mem_walk (Program.mem_walk hi)
  have hdiscovered : after.state.session.discovered = c.session.discovered :=
    hgoes.discovered_eq fun e => Event.Within.found_eq_nil
  have hexpand : ∀ v ∈ values, (Run.expandAt c.program.depth v : Run σ Json) = pure v :=
    fun v hv => Run.expandWith_of_display _ (hplain v hv)
  -- The pass has the values as they are, so only the last look at the text is left.
  rw [run_of_pass hgates (hpass.passFrom_eq hexpand c.program (some c.edition) 0),
    Run.conclude_eq c.program values (hgoes.withheld.trans hwithheld), hgoes.settings]
  constructor
  · rintro ⟨-, hsame, -⟩ ⟨hon, hstraddles, hinvokes⟩
    -- What the look runs it notes first, and a note is never taken back.
    obtain ⟨name, names, hfound⟩ := Run.expandTextAt_of_invokes (hgoes.invokes_iff.2 hinvokes)
    rw [hon, hstraddles, Bool.and_self, if_pos rfl] at hsame
    dsimp only at hsame
    rw [hfound, hdiscovered] at hsame
    exact absurd (List.append_right_eq_self.1 hsame) (List.cons_ne_nil _ _)
  · intro honce
    split
    · rename_i hlook
      rw [Bool.and_eq_true] at hlook
      have hnot : ¬ after.state.Invokes c.program.depth (c.program.resolve values) :=
        fun h => honce ⟨hlook.1, hlook.2, hgoes.invokes_iff.1 h⟩
      rw [Run.expandTextAt_of_not_invokes hnot]
      exact ⟨rfl, hdiscovered, hgoes⟩
    · exact ⟨rfl, hdiscovered, hgoes⟩

/-- An escaped tag stands before a nested one, whose value completes nothing. -/
theorem run_eq_resolve_builtin :
    let v : Vocabulary Unit := .ofNatives [Builtin.getNative]
    let get (index : Nat) (name : FieldText (Invocation Unit)) : Invocation Unit :=
      .mk ⟨index, "$get", false, false, none, 0⟩ Builtin.getNative (some [.plain name])
    let name : FieldText (Invocation Unit) :=
      ⟨"[@fn:0]", [get 0 ⟨"m", [], .literal "m"⟩], ⟨[.slot 0]⟩⟩
    let p : Program Unit :=
      ⟨"\\$get[n] $get[$get[m]]", none, "$get[n] [@fn:1]", [get 1 name],
        ⟨[.text "$get[n] ", .slot 0]⟩, 0⟩
    let c : Context Unit :=
      { program := p
        vocabulary := v
        withheld := true
        session := { keywords := [("m", .string "n"), ("n", .string "Al")] }
        memory := () }
    Program.compile v "\\$get[n] $get[$get[m]]" none = .ok p ∧ c.passesGates = true ∧
      c.withheld = true ∧
      (∃ after, Succeed p.invocations ⟨none, c⟩ [.string "Al"] after) ∧
      (∀ v ∈ [Json.string "Al"], '$' ∉ v.display.toList) ∧ ¬ c.RunsAgain [.string "Al"] ∧
      c.run.1 = some "$get[n] Al" := by
  intro v get name p c
  have hcompile : Program.compile v "\\$get[n] $get[$get[m]]" none = .ok p := by
    with_unfolding_all rfl
  obtain ⟨after, hpass⟩ : ∃ after, Succeed p.invocations ⟨none, c⟩ [.string "Al"] after :=
    ⟨_, .cons rfl .nil⟩
  have hplain : ∀ v ∈ [Json.string "Al"], '$' ∉ v.display.toList := by decide +kernel
  have honce : ¬ c.RunsAgain [.string "Al"] := fun h => absurd h.2.1 (by decide +kernel)
  have htext := ((run_eq_resolve_iff rfl rfl hpass hplain).2 honce).1
  have hresolve : p.resolve [.string "Al"] = "$get[n] Al" := by decide +kernel
  rw [hresolve] at htext
  exact ⟨hcompile, rfl, rfl, ⟨after, hpass⟩, hplain, honce, htext⟩

/-- A literal and a value form a tag together: it runs, and its value is the text. -/
theorem run_ne_resolve_joined :
    let user : Native Unit := ⟨{ name := "$user" }, false, fun _ => .succeed (.string "Alice")⟩
    let word : Native Unit := ⟨{ name := "$word" }, false, fun _ => .succeed (.string "er")⟩
    let v : Vocabulary Unit := .ofNatives [user, word]
    let i : Invocation Unit := .mk ⟨0, "$word", false, false, none, 0⟩ word none
    let p : Program Unit :=
      ⟨"$us$word", none, "$us[@fn:0]", [i], ⟨[.text "$us", .slot 0]⟩, 0⟩
    let c : Context Unit := { program := p, vocabulary := v, withheld := true, memory := () }
    Program.compile v "$us$word" none = .ok p ∧ c.settings.expand = true ∧
      c.passesGates = true ∧ i.nested = [] ∧
      (∃ after, Succeed p.invocations ⟨none, c⟩ [.string "er"] after) ∧
      (∀ v ∈ [Json.string "er"], '$' ∉ v.display.toList) ∧
      c.run.1 ≠ some (p.resolve [.string "er"]) ∧
      c.session.discovered = [] ∧ c.run.2.session.discovered ≠ [] := by
  intro user word v i p c
  have hcompile : Program.compile v "$us$word" none = .ok p := by
    subst p i v user word
    with_unfolding_all rfl
  exact ⟨hcompile, rfl, rfl, rfl, ⟨_, .cons rfl .nil⟩, by decide +kernel, by decide +kernel, rfl,
    by decide +kernel⟩

end Context

end TagTemplate
