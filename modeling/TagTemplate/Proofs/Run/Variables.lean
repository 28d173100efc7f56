import TagTemplate.Proofs.Run.Binding
import TagTemplate.Proofs.Run.Uninvoked

/-! Variables as a store.

A session stands for a list of assignments when each of its variables has the text that was
assigned to it last: `Session.Holds`. What `$let` does makes this list longer by one
(`Builtin.execute_letting`), and `$get` reads from it (`Builtin.execute_getting`). So a ledger,
which is some assignments and then a look at one variable, runs through whatever the texts are,
and its last value is read off the list: `Builtin.exists_succeed_ledger`. -/
namespace TagTemplate

/-! ### Arguments without invocations -/

/-- A text that stands for itself. -/
def FieldText.verbatim {ι : Type} (text : String) : FieldText ι := ⟨text, [], .literal text⟩

theorem Template.resolve_literal (text : String) (values : List Json) :
    (literal text).resolve values = text := by
  rw [← stretch_toList, resolve, pieces, join_fill_stretch, String.ofList_toList]

theorem Field.values_verbatim {ι : Type} (texts : List String) :
    Field.values (texts.map fun s => (.plain (.verbatim s) : Field ι)) [] =
      texts.map .string := by
  induction texts with
  | nil => rfl
  | cons text texts ih =>
    have htext : (Field.plain (.verbatim text) : Field ι).value [] = .string text :=
      congrArg Json.string (Template.resolve_literal text [])
    rw [List.map_cons, values, List.take_nil, List.drop_nil, htext, ih]
    rfl

namespace Invocation
variable {σ : Type}

/-- An invocation whose arguments are texts. -/
def verbatim (heading : Heading) (native : Native σ) (texts : List String) : Invocation σ :=
  .mk heading native (some (texts.map fun s => .plain (.verbatim s)))

theorem nested_verbatim (heading : Heading) (native : Native σ) (texts : List String) :
    (verbatim heading native texts).nested = [] :=
  List.flatMap_eq_nil_iff.2 fun field hfield => by
    obtain ⟨text, -, rfl⟩ := List.mem_map.1 hfield
    rfl

/-- **Texts go to the native as they are.** -/
theorem execute_verbatim (heading : Heading) (native : Native σ) (texts : List String)
    {schema : ArgumentSchema} (heager : native.signature.eager = true)
    (hargs : native.signature.args = some schema)
    (hmissing : schema.missing? (schema.gather (texts.map .string)).length = none)
    (c : Clocked (Context σ)) :
    ∃ call fields, call.args = schema.gather (texts.map .string) ∧
      (verbatim heading native texts).execute c =
        finishing heading ((native.behave call).run fields)
          ((c.enter heading).call call native.audited) := by
  have hnested : Succeed (verbatim heading native texts).nested (c.enter heading) []
      (c.enter heading) := by
    rw [nested_verbatim]
    exact .nil
  have hvalues : Field.values ((verbatim heading native texts).fields.getD []) [] =
      texts.map .string := Field.values_verbatim texts
  have hexecute := execute_of_complete (i := verbatim heading native texts) heager hargs hnested
    (hvalues.symm ▸ hmissing)
  rw [hvalues] at hexecute
  exact ⟨_, _, rfl, hexecute⟩

end Invocation

/-! ### What a session stands for -/

/-- Whether the variables of a session are what some assignments leave: of each name the text
that was assigned last. -/
def Session.Holds (s : Session) (assigned : List (String × String)) : Prop :=
  ∀ name, s.keyword? name = (assigned.reverse.lookup name).map .string

namespace Session
variable {s : Session} {assigned : List (String × String)}

theorem holds_nil (h : s.keywords = []) : s.Holds [] := by
  intro name
  rw [keyword?, h]
  rfl

theorem Holds.of_keywords_eq {s' : Session} (h : s.Holds assigned) (hs : s'.keywords = s.keywords) :
    s'.Holds assigned := by
  intro name
  rw [keyword?, hs]
  exact h name

/-- One assignment more is the last one of its name. -/
theorem Holds.assign (h : s.Holds assigned) (name text : String) :
    (s.assign name (.string text)).Holds (assigned ++ [(name, text)]) := by
  intro other
  rw [keyword?_assign, List.reverse_append, List.reverse_singleton, List.singleton_append,
    List.lookup_cons]
  split
  · rename_i hname
    rw [beq_iff_eq.2 hname]
    rfl
  · rename_i hname
    rw [beq_eq_false_iff_ne.2 hname]
    exact h other

end Session

/-! ### Ledgers -/

namespace Builtin
variable {σ : Type} {c : Clocked (Context σ)} {assigned : List (String × String)}

/-- The invocation of `$let` for an assignment. -/
def letting (depth index : Nat) (pair : String × String) : Invocation σ :=
  .verbatim ⟨index, "$let", false, false, none, depth⟩ letNative [pair.1, pair.2]

/-- The invocation of `$get` for a name. -/
def getting (depth index : Nat) (name : String) : Invocation σ :=
  .verbatim ⟨index, "$get", false, false, none, depth⟩ getNative [name]

/-- **`$let` adds an assignment**, whatever the texts are, unless the name is empty. -/
theorem execute_letting (depth index : Nat) {pair : String × String} (hname : pair.1 ≠ "")
    (hc : c.state.session.Holds assigned) :
    ∃ d, (letting depth index pair).execute c = (some (.ok (.success .null)), d) ∧
      d.state.session.Holds (assigned ++ [pair]) := by
  obtain ⟨call, fields, hargs, hexecute⟩ := Invocation.execute_verbatim
    ⟨index, "$let", false, false, none, depth⟩ letNative [pair.1, pair.2] rfl rfl rfl c
  have htext : call.text 0 = pair.1 := by rw [Call.text, Call.arg, hargs]; rfl
  have hvalue : call.arg 1 = .string pair.2 := by rw [Call.arg, hargs]; rfl
  have hne : (call.text 0).isEmpty = false := by simpa [htext] using hname
  have hbehave : letNative.behave call =
      .assign pair.1 (.string pair.2) (.succeed .null : Behaviour σ) := by
    rw [letNative]
    dsimp only
    rw [hne, htext, hvalue]
    rfl
  let called := (c.enter ⟨index, "$let", false, false, none, depth⟩).call call false
  have hcalled : called.state.session.Holds assigned := hc.of_keywords_eq rfl
  refine ⟨⟨called.remaining, called.state.onSession (·.assign pair.1 (.string pair.2))⟩, ?_,
    hcalled.assign pair.1 pair.2⟩
  rw [letting, hexecute, Invocation.finishing_apply, hbehave]
  rfl

/-- What `$get` finds after some assignments. -/
def found (assigned : List (String × String)) (name : String) : Json :=
  ((assigned.reverse.lookup name).map .string).getD .null

theorem display_found (assigned : List (String × String)) (name : String) :
    (found assigned name).display = (assigned.reverse.lookup name).getD "" := by
  rw [found]
  cases assigned.reverse.lookup name <;> rfl

/-- **`$get` gives what was assigned last**, or null if nothing was. -/
theorem execute_getting (depth index : Nat) (name : String) (hc : c.state.session.Holds assigned) :
    ∃ d, (getting depth index name).execute c = (some (.ok (.success (found assigned name))), d) ∧
      d.state.session.Holds assigned := by
  obtain ⟨call, fields, hargs, hexecute⟩ := Invocation.execute_verbatim
    ⟨index, "$get", false, false, none, depth⟩ getNative [name] rfl rfl rfl c
  have htext : call.text 0 = name := by rw [Call.text, Call.arg, hargs]; rfl
  let called := (c.enter ⟨index, "$get", false, false, none, depth⟩).call call false
  have hcalled : called.state.session.Holds assigned := hc.of_keywords_eq rfl
  refine ⟨called, ?_, hcalled⟩
  rw [getting, hexecute, Invocation.finishing_apply, getNative]
  dsimp only
  rw [htext, found, ← hcalled name]
  rfl

/-- A ledger: some assignments, and then a look at one variable; its invocations are numbered
from an index on. -/
def ledger (depth : Nat) : (index : Nat) → List (String × String) → String → List (Invocation σ)
  | index, [], name => [getting depth index name]
  | index, pair :: pairs, name =>
    letting depth index pair :: ledger depth (index + 1) pairs name

theorem length_ledger (depth index : Nat) (pairs : List (String × String)) (name : String) :
    (ledger (σ := σ) depth index pairs name).length = pairs.length + 1 := by
  induction pairs generalizing index with
  | nil => rfl
  | cons pair pairs ih => rw [ledger, List.length_cons, ih, List.length_cons]

/-- **A ledger runs through.** Its assignments have no value, and behind the earlier ones they
are what the session stands for; then `$get` gives what was assigned last. -/
theorem exists_succeed_ledger (depth index : Nat) (pairs : List (String × String))
    (name : String) (hnames : ∀ pair ∈ pairs, pair.1 ≠ "") (hc : c.state.session.Holds assigned) :
    ∃ d, Succeed (ledger depth index pairs name) c
        (List.replicate pairs.length .null ++ [found (assigned ++ pairs) name]) d ∧
      d.state.session.Holds (assigned ++ pairs) := by
  induction pairs generalizing index c assigned with
  | nil =>
    obtain ⟨d, hget, hd⟩ := execute_getting depth index name hc
    rw [List.append_nil]
    exact ⟨d, .cons hget .nil, hd⟩
  | cons pair pairs ih =>
    obtain ⟨hpair, hpairs⟩ := List.forall_mem_cons.1 hnames
    obtain ⟨d, hlet, hd⟩ := execute_letting depth index hpair hc
    obtain ⟨e, hrest, he⟩ := ih (index + 1) hpairs hd
    rw [List.append_assoc, List.singleton_append] at hrest he
    exact ⟨e, .cons hlet hrest, he⟩

end Builtin

end TagTemplate
