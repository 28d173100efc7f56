import TagTemplate.Proofs.Engine.Cache
import TagTemplate.Proofs.Program.Filled
import TagTemplate.Proofs.Program.RoundTrip
import TagTemplate.Proofs.Registration
import TagTemplate.Proofs.Run.Recurrence
import TagTemplate.Proofs.Run.Variables

/-! Variables from a source to its text.

In a ledger every text is written with a backslash before each character, so that nothing in it
is read as markup: the source compiles to the invocations of the ledger
(`Builtin.compileAt_ledgerSource`), and its run gives what was assigned last to the name in the end,
as long as that text has no tag shape (`Context.run_ledger`). An engine does the same with such a
source, whatever it was asked before: `Engine.render_ledger`. -/
namespace TagTemplate

open Markup

/-! ### Programs of slots alone -/

section
variable {σ : Type}

theorem Part.split_slots (is : List (Invocation σ)) :
    split (is.map .slot) = ([], is.map fun i => (i, [])) := by
  induction is with
  | nil => rfl
  | cons i is ih => rw [List.map_cons, split, ih]; rfl

theorem Part.fill_slots (is : List (Invocation σ)) (values : List Json) :
    fill values (is.map .slot) = (values.take is.length).flatMap (·.display.toList) := by
  induction is generalizing values with
  | nil => rw [List.length_nil, List.take_zero]; rfl
  | cons i is ih =>
    rw [List.map_cons, fill, ih, List.length_cons]
    cases values with
    | nil => rw [List.tail_nil, List.take_nil, List.take_nil]; rfl
    | cons v values => rfl

namespace FieldText

theorem invocations_ofParts_slots (is : List (Invocation σ)) :
    (ofParts (is.map .slot)).invocations = is := by
  rw [ofParts, Part.split_slots, List.map_map]
  exact List.map_id is

/-- Values that fill nothing but slots stand one after another. -/
theorem resolve_ofParts_slots (is : List (Invocation σ)) (values : List Json) :
    (ofParts (is.map .slot)).template.resolve values =
      String.ofList ((values.take is.length).flatMap (·.display.toList)) := by
  have hfill := Template.join_fill_parts values 0 (is.map .slot)
  rw [List.drop_zero, Part.fill_slots] at hfill
  exact hfill

end FieldText

end

/-! ### Calls whose arguments are texts -/

namespace Markup

/-- A text with a backslash before every character. -/
def escaped (text : String) : String := String.ofList (escape text.toList)

namespace Item
variable {σ : Type} (tag : Tag) (native : Native σ) (texts : List String)

/-- A call whose arguments are texts. -/
def verbatim : Item String σ := .call tag native (some (texts.map fun s => .plain [.text s]))

theorem listSpelling_verbatim :
    listSpelling escaping (texts.map fun s => (.plain [.text s] : Argument (Item String σ))) =
      (";".intercalate (texts.map escaped)).toList ++ [']'] := by
  have htext (s : String) : argumentSpelling escaping (.plain [(.text s : Item String σ)]) =
      (escaped s).toList := (List.append_nil _).trans String.toList_ofList.symm
  induction texts with
  | nil => rfl
  | cons text texts ih =>
    cases texts with
    | nil => rw [List.map_cons, List.map_nil, listSpelling, htext]; simp
    | cons text' texts =>
      have hne : (text' :: texts).map (fun s => (.plain [.text s] : Argument (Item String σ))) ≠ [] :=
        List.cons_ne_nil _ _
      rw [List.map_cons, listSpelling_cons _ _ hne, ih, htext]
      simp

/-- Such a call is written with its texts between brackets. -/
theorem spelling_verbatim : (verbatim tag native texts).spelling escaping =
    tag.spelling ++ ("[" ++ ";".intercalate (texts.map escaped) ++ "]").toList := by
  rw [verbatim, spelling, bracketsSpelling, listSpelling_verbatim]
  simp

theorem listCalls_verbatim :
    listCalls (texts.map fun s => (.plain [.text s] : Argument (Item String σ))) = 0 := by
  induction texts with
  | nil => rfl
  | cons text texts ih => rw [List.map_cons, listCalls, ih]; rfl

theorem listFields_verbatim (depth next : Nat) :
    listFields escaping depth next
        (texts.map fun s => (.plain [.text s] : Argument (Item String σ))) =
      texts.map fun s => .plain (.verbatim s) := by
  induction texts with
  | nil => rfl
  | cons text texts ih =>
    have htext : textParts escaping depth next [(.text text : Item String σ)] =
        text.toList.map .char := List.append_nil _
    rw [List.map_cons, listFields, argumentField, htext, FieldText.ofParts_chars]
    exact congrArg (_ :: ·) ih

theorem calls_verbatim : (verbatim tag native texts).calls = 1 :=
  congrArg (· + 1) (listCalls_verbatim texts)

/-- Such a call compiles to an invocation with these texts. -/
theorem parts_verbatim (depth next : Nat) :
    (verbatim tag native texts).parts escaping depth next =
      [.slot (.verbatim (tag.heading native next depth) native texts)] := by
  rw [verbatim, parts, bracketsCalls, listCalls_verbatim, bracketsFields, listFields_verbatim]
  rfl

end Item

end Markup

/-! ### Sources -/

namespace Builtin
variable {σ : Type}

/-- The source of a ledger: each text stands in it with a backslash before every character. -/
def ledgerSource (pairs : List (String × String)) (name : String) : String :=
  String.join (pairs.map fun pair => "$let[" ++ escaped pair.1 ++ ";" ++ escaped pair.2 ++ "]") ++
    ("$get[" ++ escaped name ++ "]")

/-- A ledger as markup. -/
def ledgerItems : List (String × String) → String → List (Item String σ)
  | [], name => [.verbatim ⟨false, false, none, "get"⟩ getNative [name]]
  | pair :: pairs, name =>
    .verbatim ⟨false, false, none, "let"⟩ letNative [pair.1, pair.2] :: ledgerItems pairs name

theorem toList_ledgerSource (pairs : List (String × String)) (name : String) :
    (ledgerSource pairs name).toList =
      Item.textSpelling escaping (ledgerItems pairs name : List (Item String σ)) := by
  induction pairs with
  | nil =>
    rw [ledgerItems, Item.textSpelling, Item.spelling_verbatim]
    simp [ledgerSource, Item.textSpelling, Tag.spelling, Tag.spellCount]
  | cons pair pairs ih =>
    rw [ledgerItems, Item.textSpelling, Item.spelling_verbatim, ← ih]
    simp [ledgerSource, Tag.spelling, Tag.spellCount]

theorem textParts_ledgerItems (depth next : Nat) (pairs : List (String × String)) (name : String) :
    Item.textParts escaping depth next (ledgerItems pairs name) =
      (ledger depth next pairs name : List (Invocation σ)).map .slot := by
  induction pairs generalizing next with
  | nil =>
    rw [ledgerItems, Item.textParts, Item.parts_verbatim]
    rfl
  | cons pair pairs ih =>
    rw [ledgerItems, Item.textParts, Item.parts_verbatim, Item.calls_verbatim, ih]
    rfl

theorem nodup_all : ((all : List (Native σ)).map fun n => normalise n.signature.name).Nodup := by
  have h : ((all : List (Native Unit)).map fun n => normalise n.signature.name).Nodup := by
    decide +kernel
  exact h

theorem plainName_of_mem_all {n : Native σ} (hn : n ∈ all) :
    ∀ name ∈ n.signature.names, PlainName (normalise name) := by
  have h : ∀ s ∈ (all : List (Native Unit)).map (·.signature), ∀ name ∈ s.names,
      PlainName (normalise name) := by
    decide +kernel
  exact h n.signature (List.mem_map_of_mem (f := fun n => n.signature) hn)

theorem fits_ledgerItems (pairs : List (String × String)) (name : String) :
    Item.TextAll (Item.Fits (Vocabulary.ofNatives all))
      (ledgerItems pairs name : List (Item String σ)) := by
  have hlet : (Vocabulary.ofNatives (all (σ := σ))).resolve "let" = some letNative := by
    have hname : normalise "$let" = normalise "let" := by decide +kernel
    exact Vocabulary.resolve_of_nodup nodup_all List.mem_cons_self hname
  have hget : (Vocabulary.ofNatives (all (σ := σ))).resolve "get" = some getNative := by
    have hname : normalise "$get" = normalise "get" := by decide +kernel
    exact Vocabulary.resolve_of_nodup nodup_all (List.mem_cons_of_mem _ List.mem_cons_self) hname
  induction pairs with
  | nil =>
    have hfits : Item.Fits (Vocabulary.ofNatives all)
        (.verbatim ⟨false, false, none, "get"⟩ (getNative (σ := σ)) [name]) :=
      ⟨⟨"get", hget, by decide +kernel⟩, nofun, rfl⟩
    exact ⟨⟨hfits, ⟨trivial, trivial⟩, trivial⟩, trivial⟩
  | cons pair pairs ih =>
    have hfits : Item.Fits (Vocabulary.ofNatives all)
        (.verbatim ⟨false, false, none, "let"⟩ (letNative (σ := σ)) [pair.1, pair.2]) :=
      ⟨⟨"let", hlet, by decide +kernel⟩, nofun, rfl, rfl⟩
    exact ⟨⟨hfits, ⟨trivial, trivial⟩, ⟨trivial, trivial⟩, trivial⟩, ih⟩

theorem endsInCall_ledgerItems (pairs : List (String × String)) (name : String) :
    Item.EndsInCall (ledgerItems pairs name : List (Item String σ)) := by
  induction pairs with
  | nil => exact ⟨[], _, _, _, rfl⟩
  | cons pair pairs ih =>
    obtain ⟨init, tag, native, args, heq⟩ := ih
    exact ⟨_ :: init, tag, native, args, congrArg (_ :: ·) heq⟩

/-- The program of a ledger. -/
def ledgerProgram (pairs : List (String × String)) (name : String) (path : Option String)
    (depth : Nat) : Program σ :=
  .ofText (ledgerSource pairs name) path depth (.ofParts ((ledger depth 0 pairs name).map .slot))

/-- **The source of a ledger compiles to its invocations**, whatever its texts are. -/
theorem compileAt_ledgerSource (pairs : List (String × String)) (name : String)
    (path : Option String) (depth : Nat) :
    Program.compileAt (.ofNatives (all (σ := σ))) (ledgerSource pairs name) path depth =
      .ok (ledgerProgram pairs name path depth) := by
  have hplain : (Vocabulary.ofNatives (all (σ := σ))).Plain :=
    Vocabulary.plain_ofNatives fun n hn => plainName_of_mem_all hn
  have hread : Program.ReadsText (.ofNatives (all (σ := σ))) depth {} _ _ :=
    Program.readsText_text hplain (fits_ledgerItems pairs name)
      (.inr (endsInCall_ledgerItems pairs name)) {} 0 0
  rw [textParts_ledgerItems, ← toList_ledgerSource] at hread
  exact Program.compileAt_eq_ok_iff.2 ⟨_, hread, (Program.ofDraft_extend _ path depth _).symm⟩

end Builtin

/-! ### Runs -/

namespace Context
variable {σ : Type} {c : Context σ} {pairs : List (String × String)} {name : String}
  {path : Option String} {depth : Nat}

/-- A withheld run whose invocations succeed, with values that need no expansion and give a
text without shape, ends with that text. -/
theorem run_of_succeed {values : List Json} {after : Clocked (Context σ)}
    (hgates : c.passesGates = true) (hwithheld : c.withheld = true)
    (hpass : Succeed c.program.invocations ⟨none, c⟩ values after)
    (hexpand : ∀ v ∈ values, (Run.expandAt c.program.depth v : Run σ Json) = pure v)
    (hshape : Tag.hasShape (c.program.resolve values) = false) :
    c.run = (some (c.program.resolve values), after.state) := by
  have hgoes : c.GoesOn (Event.Within c.program) after.state :=
    hpass.relates (F := Frame.ofProgram c.program) fun i hi =>
      Frame.keeps_of_mem_walk (Program.mem_walk hi)
  have hstraddles : Run.straddles (c.program.resolve values) (c.program.template.spans values) =
      false :=
    Bool.eq_false_iff.2 fun h => Bool.eq_false_iff.1 hshape (Run.hasShape_of_straddles h)
  rw [run_of_pass hgates (hpass.passFrom_eq hexpand c.program (some c.edition) 0),
    Run.conclude_eq c.program values (hgoes.withheld.trans hwithheld), hstraddles, Bool.and_false,
    if_neg Bool.false_ne_true]

/-- **The text of a ledger is what was assigned last**, if that has no tag shape, and the session
stands for the assignments afterwards. -/
theorem run_ledger (hprogram : c.program = Builtin.ledgerProgram pairs name path depth)
    (hgates : c.passesGates = true) (hwithheld : c.withheld = true)
    (hkeywords : c.session.keywords = []) (hnames : ∀ pair ∈ pairs, pair.1 ≠ "")
    (hshape : Tag.hasShape ((pairs.reverse.lookup name).getD "") = false) :
    ∃ after, c.run = (some ((pairs.reverse.lookup name).getD ""), after) ∧
      after.session.Holds pairs := by
  obtain ⟨after, hpass, hafter⟩ := Builtin.exists_succeed_ledger depth 0 pairs name
    (c := ⟨none, c⟩) hnames (Session.holds_nil hkeywords)
  rw [List.nil_append] at hpass hafter
  have hinvocations : c.program.invocations = Builtin.ledger depth 0 pairs name := by
    rw [hprogram]
    exact FieldText.invocations_ofParts_slots _
  rw [← hinvocations] at hpass
  have htext : c.program.resolve (List.replicate pairs.length .null ++ [Builtin.found pairs name]) =
      (pairs.reverse.lookup name).getD "" := by
    rw [hprogram]
    refine (FieldText.resolve_ofParts_slots _ _).trans ?_
    rw [Builtin.length_ledger, List.take_of_length_le (by simp), List.flatMap_append,
      List.flatMap_singleton, Builtin.display_found]
    have hnulls : (List.replicate pairs.length Json.null).flatMap (·.display.toList) = [] :=
      List.flatMap_eq_nil_iff.2 fun v hv => List.eq_of_mem_replicate hv ▸ rfl
    rw [hnulls, List.nil_append, String.ofList_toList]
  have hexpand : ∀ v ∈ List.replicate pairs.length .null ++ [Builtin.found pairs name],
      (Run.expandAt c.program.depth v : Run σ Json) = pure v := by
    have hnull : (Run.expandAt c.program.depth .null : Run σ Json) = pure .null :=
      Run.expandWith_of_display _ (by decide)
    rw [List.forall_mem_append, List.forall_mem_singleton]
    refine ⟨fun v hv => List.eq_of_mem_replicate hv ▸ hnull, ?_⟩
    rw [Builtin.found]
    cases hfound : pairs.reverse.lookup name with
    | none => exact hnull
    | some text =>
      rw [hfound] at hshape
      exact Run.expandWith_of_hasShape _ hshape
  refine ⟨after.state, ?_, hafter⟩
  rw [run_of_succeed hgates hwithheld hpass hexpand (htext.symm ▸ hshape), htext]

end Context

/-! ### Engines -/

namespace Engine
variable {σ : Type}

/-- Whatever an engine was asked for, unless it was another source under the key of this one, the
program that comes back is one of this source. It may have been compiled for another path. -/
theorem Keeps.exists_issue {v : Vocabulary σ} {capacity : Nat} {e : Engine σ} {source : String}
    (h : Keeps v capacity (fun other path => key other path = key source Option.none →
      other = source) e)
    {p : Option String → Program σ} (hp : ∀ path, Program.compile v source path = .ok (p path)) :
    ∃ issue e' path, e.issue source Option.none = .ok (issue, e') ∧ issue.program = p path := by
  have hasked : key source Option.none = key source Option.none → source = source := fun _ => rfl
  rcases h.issue hasked with ⟨error, herror, -⟩ | ⟨issue, e', hissue, -, hcompiled | hkept⟩
  · rw [hp] at herror
    cases herror
  · exact ⟨issue, e', _, hissue, Except.ok.inj (hcompiled.symm.trans (hp _))⟩
  · obtain ⟨other, path, hother, hkey, hcompiled⟩ := h.held _ _ hkept
    obtain rfl := hother hkey.symm
    exact ⟨issue, e', path, hissue, Except.ok.inj (hcompiled.symm.trans (hp path))⟩

/-- A run without a command and without an invoker passes the gates, whatever the settings. -/
theorem passesGates_context (e : Engine σ) (program : Program σ) (memory : σ) :
    (e.context program memory).passesGates = true := by
  rw [Context.passesGates, Context.passesCommand, Context.passesRestrictions, context]
  cases e.settings.restrictions with
  | none => rfl
  | some lists => simp

/-- **Variables are a store, from the source to the text.** Take assignments whose names are not
empty and whose texts are anything, and write each text with a backslash before every character:
rendering the assignments and then a look at one name gives the text that was assigned to it last,
or the empty text if none was, provided that this text has no tag shape. Afterwards every variable
has the text that was assigned to it last, and there are no others. It is so in every engine with
the built-in natives, whatever its settings, whatever room it has and whatever it was asked
before, unless it was asked for another source under the key of this one. -/
theorem render_ledger (settings : Settings) (capacity : Nat) {pairs : List (String × String)}
    (hnames : ∀ pair ∈ pairs, pair.1 ≠ "") {name : String}
    (hshape : Tag.hasShape ((pairs.reverse.lookup name).getD "") = false)
    {requests : List (Request σ)}
    (hrequests : ∀ r ∈ requests, ∀ t ∈ r.template?,
      key t.1 t.2 = key (Builtin.ledgerSource pairs name) none →
        t.1 = Builtin.ledgerSource pairs name)
    (memory : σ) :
    ∃ after e',
      ((new (.ofNatives Builtin.all) settings capacity).after requests).render
        (Builtin.ledgerSource pairs name) [] memory =
          .ok (some ((pairs.reverse.lookup name).getD ""), after, e') ∧
      ∀ other, after.session.keyword? other = (pairs.reverse.lookup other).map .string := by
  have hkeeps := (keeps_new (.ofNatives (Builtin.all (σ := σ))) settings capacity
    (fun other path => key other path = key (Builtin.ledgerSource pairs name) none →
      other = Builtin.ledgerSource pairs name)).after hrequests
  obtain ⟨issue, e', path, hissue, hprogram⟩ := hkeeps.exists_issue fun path =>
    Builtin.compileAt_ledgerSource pairs name path 0
  let c : Context σ := { e'.context issue.program memory with withheld := true }.onSession
    fun s => { s with keywords := [] }
  have hgates : c.passesGates = true := passesGates_context e' issue.program memory
  obtain ⟨after, hrun, hafter⟩ := c.run_ledger hprogram hgates rfl rfl hnames hshape
  refine ⟨after, e', ?_, hafter⟩
  rw [render, hissue]
  show Except.ok (c.run.1, c.run.2, e') = _
  rw [hrun]

/-- The last text of a name is a dollar sign and a digit, after a tag and beside a name of
separators and brackets; the program is kept for an empty path. -/
theorem render_ledger_kept :
    let pairs := [("x", "$get[y]"), ("a;b]", "\\"), ("x", "5$")]
    let source := "$let[\\x;\\$\\g\\e\\t\\[\\y\\]]$let[\\a\\;\\b\\];\\\\]$let[\\x;\\5\\$]$get[\\x]"
    let requests : List (Request Unit) := [.render "$stop" [] (), .compile source (some "")]
    Builtin.ledgerSource pairs "x" = source ∧ (∀ pair ∈ pairs, pair.1 ≠ "") ∧
      Tag.hasShape ((pairs.reverse.lookup "x").getD "") = false ∧
      (∀ r ∈ requests, ∀ t ∈ r.template?, key t.1 t.2 = key source none → t.1 = source) ∧
      ∃ after e', ((new (.ofNatives Builtin.all) {} 1024).after requests).render source [] () =
          .ok (some "5$", after, e') ∧
        ∀ other, after.session.keyword? other = (pairs.reverse.lookup other).map .string := by
  intro pairs source requests
  have hsource : Builtin.ledgerSource pairs "x" = source := by decide +kernel
  have hnames : ∀ pair ∈ pairs, pair.1 ≠ "" := by decide
  have hshape : Tag.hasShape ((pairs.reverse.lookup "x").getD "") = false := by decide +kernel
  have hrequests : ∀ r ∈ requests, ∀ t ∈ r.template?,
      key t.1 t.2 = key source none → t.1 = source := by
    refine List.forall_mem_cons.2 ⟨?_, List.forall_mem_singleton.2 ?_⟩
    · rintro _ ⟨⟩ hkey
      exact absurd hkey (by decide +kernel)
    · rintro _ ⟨⟩ _
      rfl
  have hrender := render_ledger {} 1024 hnames hshape (hsource.symm ▸ hrequests) ()
  rw [hsource] at hrender
  exact ⟨hsource, hnames, hshape, hrequests, hrender⟩

end Engine

end TagTemplate
