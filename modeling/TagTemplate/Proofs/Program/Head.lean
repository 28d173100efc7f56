import Mathlib.Data.List.TakeWhile
import Mathlib.Logic.Relation
import TagTemplate.Proofs.Program.Reading
import TagTemplate.Proofs.Tag.Positions

/-! Reading by position.

A `Head` reads a template in place: it has the characters and the placed tags before it, and keeps
the number of the character that it has come to, the number of tags that it has passed, and the
argument lists that it is inside of. In one turn it takes a character, an escape, an operator, the
end of an argument or a tag. Where a character, a stretch of the text, a tag or a spec is looked up
that is not there, it strays.

It never does. What a head keeps always `Fits` the text, so each lookup finds something, and each
turn brings the head on by a character at least (`sound_turn`). Therefore every run of it comes to
an end: `exists_end`. -/
namespace TagTemplate.Program
variable {σ : Type}

/-- An argument list that is read. -/
structure Listing (σ : Type) where
  /-- The tag that the list follows. -/
  tag : Tag.Placed
  native : Native σ
  schema : ArgumentSchema
  /-- The number of the spec of the argument that is read. -/
  spec : Nat := 0
  /-- The arguments before it. -/
  fields : List (Field (Invocation σ)) := []
  /-- What is read of the argument, or of its side behind an operator. -/
  draft : Draft σ := {}
  /-- The operator, and what stands before it. -/
  before : Option (Operator × Draft σ) := none

/-- Where a reader has come to. -/
structure Head (σ : Type) where
  /-- The number of the next character. -/
  index : Nat := 0
  /-- How many tags are read or passed over. -/
  passed : Nat := 0
  /-- The number of the next invocation. -/
  next : Nat := 0
  /-- What is read at top level. -/
  draft : Draft σ := {}
  /-- The argument lists that are open, the innermost first. -/
  listings : List (Listing σ) := []

/-- What a reader does in one turn: it goes on, it ends with a result, or it looks something up
that is not there. -/
inductive Turn (σ : Type) where
  | goes (h : Head σ)
  | ends (result : Except Problem (Draft σ))
  | strays

/-- A fault of the function whose arguments are read. -/
def Listing.problem (l : Listing σ) (fault : CompileFault) : Problem :=
  ⟨fault, l.native.signature.name, l.tag.start⟩

namespace Head

/-- Writes to the innermost text. -/
def write (h : Head σ) (f : Draft σ → Draft σ) : Head σ :=
  match h.listings with
  | [] => { h with draft := f h.draft }
  | l :: ls => { h with listings := { l with draft := f l.draft } :: ls }

/-- Takes some characters for one literal character. -/
def take (h : Head σ) (count : Nat) (c : Char) : Head σ :=
  { h.write (·.char c) with index := h.index + count }

/-- Completes an invocation. -/
def complete (h : Head σ) (depth : Nat) (tag : Tag) (native : Native σ)
    (fields : Option (List (Field (Invocation σ)))) : Head σ :=
  { h.write (·.invoke (.mk (tag.heading native h.next depth) native fields)) with
    next := h.next + 1 }

section
variable (v : Vocabulary σ) (depth : Nat) (cs : List Char) (tags : List Tag.Placed)

/-- Passes over the tags that the head has come behind the start of. -/
def seek (h : Head σ) : Head σ :=
  { h with passed := h.passed + ((tags.drop h.passed).takeWhile (·.start < h.index)).length }

/-- The next tag that starts at the head or behind it. -/
def ahead? (h : Head σ) : Option Tag.Placed := tags[(h.seek tags).passed]?

/-- Begins the invocation of a tag. -/
def enter (h : Head σ) (p : Tag.Placed) : Turn σ :=
  let h := { h with index := p.stop, passed := h.passed + 1 }
  match v.resolve p.tag.name with
  | none => .ends (.error ⟨.unregistered, normalise p.tag.name, p.start⟩)
  | some native =>
    match native.signature.args with
    | none => .goes (h.complete depth p.tag native none)
    | some schema =>
      if cs[h.index]? = some '[' then
        .goes { h with
          index := h.index + 1
          listings := { tag := p, native := native, schema := schema } :: h.listings }
      else if schema.brackets then
        .ends (.error ⟨.missingBrackets, native.signature.name, p.start⟩)
      else .goes (h.complete depth p.tag native none)

/-- Reads text at top level before a tag that is to come. -/
def passText (h : Head σ) : Turn σ :=
  match cs[h.index]? with
  | none => .strays
  | some c =>
    if c = '\\' ∧ h.index + 1 < cs.length then
      match cs[h.index + 1]? with
      | none => .strays
      | some d => .goes (h.take 2 d)
    else .goes (h.take 1 c)

/-- Reads at top level. -/
def turnText (h : Head σ) : Turn σ :=
  match h.ahead? tags with
  | some p =>
    if p.start = h.index then (h.seek tags).enter v depth cs p else (h.seek tags).passText cs
  | none =>
    if h.index ≤ cs.length then
      .ends (.ok { h.draft with
        text := h.draft.text.pushText (String.ofList (cs.drop h.index)) })
    else .strays

/-- Ends an argument. -/
def endField (h : Head σ) (l : Listing σ) (ls : List (Listing σ)) (spec : FieldSpec) (c : Char) :
    Turn σ :=
  let h := { h with index := h.index + 1 }
  let fields := l.fields ++ [l.draft.field spec.condition l.before]
  let l := { l with fields := fields, draft := {}, before := none }
  if c = ']' then .goes ({ h with listings := ls }.complete depth l.tag.tag l.native (some fields))
  else if spec.rest then .goes { h with listings := l :: ls }
  else if l.spec + 1 < l.schema.fields.length then
    .goes { h with listings := { l with spec := l.spec + 1 } :: ls }
  else .ends (.error (l.problem (.tooManyArguments l.schema.fields.length)))

/-- Reads an operator, or the next character of an argument. -/
def passField (h : Head σ) (l : Listing σ) (ls : List (Listing σ)) (spec : FieldSpec) (c : Char) :
    Turn σ :=
  if spec.condition && l.before.isNone then
    if h.index ≤ cs.length then
      match Operator.scan (cs.drop h.index) with
      | some op => .goes { h with
          index := h.index + op.width
          listings := { l with draft := {}, before := some (op, l.draft) } :: ls }
      | none => .goes (h.take 1 c)
    else .strays
  else .goes (h.take 1 c)

/-- Reads in an argument. -/
def turnField (h : Head σ) (l : Listing σ) (ls : List (Listing σ)) (spec : FieldSpec) : Turn σ :=
  match cs[h.index]? with
  | none => .ends (.error (l.problem .unclosed))
  | some c =>
    if c = '\\' then
      match cs[h.index + 1]? with
      | none => .ends (.error (l.problem .unclosed))
      | some d => .goes (h.take 2 d)
    else if c = ';' ∨ c = ']' then h.endField depth l ls spec c
    else
      match (h.ahead? tags).filter (·.start == h.index) with
      | some p => (h.seek tags).enter v depth cs p
      | none => (h.seek tags).passField cs l ls spec c

/-- Reads in an argument list. -/
def turnList (h : Head σ) (l : Listing σ) (ls : List (Listing σ)) : Turn σ :=
  match l.schema.fields with
  | [] =>
    match cs[h.index]? with
    | none => .ends (.error (l.problem .unclosed))
    | some c =>
      if c = ']' then
        .goes ({ h with index := h.index + 1, listings := ls }.complete depth l.tag.tag l.native
          (some []))
      else .ends (.error (l.problem (.tooManyArguments 0)))
  | _ :: _ =>
    match l.schema.fields[l.spec]? with
    | none => .strays
    | some spec => h.turnField v depth cs tags l ls spec

/-- What a head does next. -/
def turn (h : Head σ) : Turn σ :=
  match h.listings with
  | [] => h.turnText v depth cs tags
  | l :: ls => h.turnList v depth cs tags l ls

/-- Whether a head goes on to another one in one turn. -/
def Goes (h h' : Head σ) : Prop := h.turn v depth cs tags = .goes h'

/-- Whether a head comes to another one in some turns. -/
def Reaches : Head σ → Head σ → Prop := Relation.ReflTransGen (Goes v depth cs tags)

end

@[simp] theorem write_index (h : Head σ) (f : Draft σ → Draft σ) : (h.write f).index = h.index := by
  rw [write]
  split <;> rfl

@[simp] theorem write_passed (h : Head σ) (f : Draft σ → Draft σ) :
    (h.write f).passed = h.passed := by
  rw [write]
  split <;> rfl

@[simp] theorem seek_index (tags : List Tag.Placed) (h : Head σ) :
    (h.seek tags).index = h.index := rfl

@[simp] theorem seek_listings (tags : List Tag.Placed) (h : Head σ) :
    (h.seek tags).listings = h.listings := rfl

end Head

/-! ### What a head keeps -/

/-- Whether there is a spec for the argument that is read, unless the list is to stay empty. -/
def Listing.HasSpec (l : Listing σ) : Prop :=
  l.schema.fields = [] ∨ l.spec < l.schema.fields.length

namespace Head

/-- Whether what a head keeps fits the text and its tags. -/
structure Fits (cs : List Char) (tags : List Tag.Placed) (h : Head σ) : Prop where
  index_le : h.index ≤ cs.length
  passed_le : h.passed ≤ tags.length
  /-- The head is behind the start of each tag that it has passed. -/
  behind : ∀ p ∈ tags.take h.passed, p.start < h.index
  specs : ∀ l ∈ h.listings, l.HasSpec

end Head

/-- Whether a turn of a head does not stray, and where it goes on to fits the text and is behind
where it comes from. -/
def Turn.Sound (cs : List Char) (tags : List Tag.Placed) (h : Head σ) : Turn σ → Prop
  | .goes h' => h'.Fits cs tags ∧ h.index < h'.index
  | .ends _ => True
  | .strays => False

namespace Head
variable {v : Vocabulary σ} {depth : Nat} {cs : List Char} {tags : List Tag.Placed}

theorem hasSpec_write {h : Head σ} {f : Draft σ → Draft σ} (specs : ∀ l ∈ h.listings, l.HasSpec) :
    ∀ l ∈ (h.write f).listings, l.HasSpec := by
  rw [write]
  split
  · exact specs
  · rename_i l ls hlistings
    rw [hlistings] at specs
    obtain ⟨hl, hls⟩ := List.forall_mem_cons.1 specs
    exact List.forall_mem_cons.2 ⟨hl, hls⟩

namespace Fits
variable {h : Head σ}

/-- A head that comes on in the text still fits it. -/
theorem move (hf : h.Fits cs tags) {index : Nat} (hon : h.index ≤ index) (hle : index ≤ cs.length)
    {next : Nat} {draft : Draft σ} {listings : List (Listing σ)}
    (specs : ∀ l ∈ listings, l.HasSpec) :
    Fits cs tags ⟨index, h.passed, next, draft, listings⟩ :=
  ⟨hle, hf.passed_le, fun p hp => Nat.lt_of_lt_of_le (hf.behind p hp) hon, specs⟩

/-- A head that has taken some characters has come on. -/
theorem sound_take (hf : h.Fits cs tags) {count : Nat} (hcount : 0 < count)
    (hle : h.index + count ≤ cs.length) (c : Char) :
    Turn.Sound cs tags h (.goes (h.take count c)) := by
  refine ⟨?_, Nat.lt_add_of_pos_right hcount⟩
  have hmove : Fits cs tags ⟨h.index + count, h.passed, (h.write (·.char c)).next,
      (h.write (·.char c)).draft, (h.write (·.char c)).listings⟩ :=
    hf.move (Nat.le_add_right _ count) hle (hasSpec_write hf.specs)
  rwa [← h.write_passed (·.char c)] at hmove

/-- Nothing else changes where an invocation is completed. -/
theorem complete (hf : h.Fits cs tags) (tag : Tag) (native : Native σ)
    (fields : Option (List (Field (Invocation σ)))) :
    (h.complete depth tag native fields).Fits cs tags := by
  refine ⟨?_, ?_, ?_, hasSpec_write hf.specs⟩
  · simpa [Head.complete] using hf.index_le
  · simpa [Head.complete] using hf.passed_le
  · simpa [Head.complete] using hf.behind

/-- A head that looks for the next tag passes over those that start before it. -/
theorem seek (hf : h.Fits cs tags) : (h.seek tags).Fits cs tags := by
  have hlength := (List.takeWhile_prefix (l := tags.drop h.passed) (·.start < h.index)).length_le
  rw [List.length_drop] at hlength
  refine ⟨hf.index_le, ?_, fun p hp => ?_, hf.specs⟩
  · have := hf.passed_le
    simp only [Head.seek]
    omega
  · simp only [Head.seek, List.take_add] at hp
    rcases List.mem_append.1 hp with hp | hp
    · exact hf.behind p hp
    · rw [(List.prefix_iff_eq_take.1 (List.takeWhile_prefix _)).symm] at hp
      simpa using List.mem_takeWhile_imp hp

end Fits

/-- The tag that is handed out is the first that starts at the head or behind it, among those that
are not passed. -/
theorem ahead?_eq (h : Head σ) :
    h.ahead? tags = ((tags.drop h.passed).dropWhile (·.start < h.index)).head? := by
  have hfirst (ps : List Tag.Placed) (before : Tag.Placed → Bool) :
      ps[(ps.takeWhile before).length]? = (ps.dropWhile before).head? := by
    induction ps with
    | nil => rfl
    | cons p ps ih => by_cases h : before p <;> simp [h, ih]
  rw [ahead?, seek, ← List.getElem?_drop, hfirst]

/-- **A tag that is handed out starts at the head or behind it.** -/
theorem le_start_of_ahead? {h : Head σ} {p : Tag.Placed} (hp : h.ahead? tags = some p) :
    h.index ≤ p.start := by
  have hnot := List.head?_dropWhile_not (fun p : Tag.Placed => decide (p.start < h.index))
    (tags.drop h.passed)
  rw [ahead?_eq] at hp
  rw [hp] at hnot
  simpa using hnot

/-- No tag that starts at the head or behind it is passed over: an earlier one is handed out, if it
is not that tag. -/
theorem Fits.exists_ahead? {h : Head σ} (hf : h.Fits cs tags)
    (ordered : tags.Pairwise fun a b => a.start < b.start) {p : Tag.Placed} (hp : p ∈ tags)
    (hle : h.index ≤ p.start) : ∃ q, h.ahead? tags = some q ∧ q.start ≤ p.start := by
  have hdrop : p ∈ (tags.drop h.passed).dropWhile (·.start < h.index) := by
    rw [← List.take_append_drop h.passed tags, List.mem_append] at hp
    rcases hp with hp | hp
    · exact absurd (hf.behind p hp) (Nat.not_lt.2 hle)
    · rw [← List.takeWhile_append_dropWhile (p := (·.start < h.index)) (l := tags.drop h.passed),
        List.mem_append] at hp
      refine hp.resolve_left fun hbefore => absurd hle (Nat.not_le.2 ?_)
      simpa using List.mem_takeWhile_imp hbefore
  have hsuffix : (tags.drop h.passed).dropWhile (·.start < h.index) <:+ tags :=
    (List.dropWhile_suffix _).trans (List.drop_suffix _ _)
  have hordered := ordered.sublist hsuffix.sublist
  rw [ahead?_eq]
  obtain ⟨q, later, hq⟩ := List.exists_cons_of_ne_nil (List.ne_nil_of_mem hdrop)
  rw [hq] at hdrop hordered ⊢
  refine ⟨q, rfl, ?_⟩
  rcases List.mem_cons.1 hdrop with rfl | hlater
  · exact Nat.le_refl _
  · exact Nat.le_of_lt ((List.pairwise_cons.1 hordered).1 p hlater)

/-! ### Turns -/

section
variable (htags : ∀ p ∈ tags, p.start < p.stop ∧ p.stop ≤ cs.length)
include htags

theorem Fits.sound_enter {h : Head σ} (hf : h.Fits cs tags) {p : Tag.Placed}
    (hp : tags[h.passed]? = some p) (hstart : p.start = h.index) :
    (h.enter v depth cs p).Sound cs tags h := by
  obtain ⟨hlt, hle⟩ := htags p (List.mem_of_getElem? hp)
  have hentered : Fits cs tags { h with index := p.stop, passed := h.passed + 1 } := by
    refine ⟨hle, (List.getElem?_eq_some_iff.1 hp).1, fun q hq => ?_, hf.specs⟩
    rw [List.take_add_one, hp] at hq
    rcases List.mem_append.1 hq with hq | hq
    · exact Nat.lt_trans (hf.behind q hq) (hstart ▸ hlt)
    · obtain rfl : q = p := by simpa using hq
      exact hlt
  have hcomplete (native : Native σ) : Turn.Sound cs tags h (.goes (Head.complete
      { h with index := p.stop, passed := h.passed + 1 } depth p.tag native none)) :=
    ⟨hentered.complete .., by simpa [Head.complete, ← hstart] using hlt⟩
  rw [enter]
  split
  · trivial
  · split
    · exact hcomplete _
    · rename_i schema _
      split
      · rename_i hopens
        obtain ⟨hinside, -⟩ := List.getElem?_eq_some_iff.1 hopens
        refine ⟨hentered.move (Nat.le_succ _) hinside (List.forall_mem_cons.2 ⟨?_, hf.specs⟩), ?_⟩
        · rcases Nat.eq_zero_or_pos schema.fields.length with hnil | hpos
          · exact .inl (List.length_eq_zero_iff.1 hnil)
          · exact .inr hpos
        · exact Nat.lt_succ_of_lt (hstart ▸ hlt)
      · split
        · trivial
        · exact hcomplete _

omit htags in
theorem Fits.sound_passText {h : Head σ} (hf : h.Fits cs tags) (hinside : h.index < cs.length) :
    (h.passText cs).Sound cs tags h := by
  rw [passText, List.getElem?_eq_getElem hinside]
  dsimp only
  split
  · rename_i hescape
    rw [List.getElem?_eq_getElem hescape.2]
    exact hf.sound_take (by decide) hescape.2 _
  · exact hf.sound_take (by decide) hinside _

theorem Fits.sound_turnText {h : Head σ} (hf : h.Fits cs tags) :
    (h.turnText v depth cs tags).Sound cs tags h := by
  rw [turnText]
  split
  · rename_i p hp
    obtain ⟨hlt, hle⟩ := htags p (List.mem_of_getElem? hp)
    have hstart := le_start_of_ahead? hp
    split
    · rename_i hhere
      exact hf.seek.sound_enter htags hp hhere
    · exact hf.seek.sound_passText (by rw [seek_index]; omega)
  · rw [if_pos hf.index_le]
    trivial

omit htags in
theorem Fits.sound_endField {h : Head σ} (hf : h.Fits cs tags) {l : Listing σ}
    {ls : List (Listing σ)} (hlistings : h.listings = l :: ls) (hinside : h.index < cs.length)
    (spec : FieldSpec) (c : Char) : (h.endField depth l ls spec c).Sound cs tags h := by
  obtain ⟨hl, hls⟩ := List.forall_mem_cons.1 (hlistings ▸ hf.specs)
  have hmove {next : Nat} {draft : Draft σ} {listings : List (Listing σ)}
      (specs : ∀ l ∈ listings, l.HasSpec) :
      Fits cs tags ⟨h.index + 1, h.passed, next, draft, listings⟩ :=
    hf.move (Nat.le_succ _) hinside specs
  rw [endField]
  dsimp only
  split
  · exact ⟨(hmove hls).complete .., by simp [Head.complete]⟩
  · split
    · exact ⟨hmove (List.forall_mem_cons.2 ⟨hl, hls⟩), Nat.lt_succ_self _⟩
    · split
      · rename_i hmore
        exact ⟨hmove (List.forall_mem_cons.2 ⟨.inr hmore, hls⟩), Nat.lt_succ_self _⟩
      · trivial

omit htags in
theorem Fits.sound_passField {h : Head σ} (hf : h.Fits cs tags) {l : Listing σ}
    {ls : List (Listing σ)} (hlistings : h.listings = l :: ls) (hinside : h.index < cs.length)
    (spec : FieldSpec) (c : Char) : (h.passField cs l ls spec c).Sound cs tags h := by
  obtain ⟨hl, hls⟩ := List.forall_mem_cons.1 (hlistings ▸ hf.specs)
  have htake := hf.sound_take Nat.one_pos hinside c
  rw [passField]
  split
  · rw [if_pos hf.index_le]
    split
    · rename_i op hop
      have hwidth := Operator.width_le_of_scan hop
      rw [List.length_drop] at hwidth
      have hpos := Operator.width_pos_of_scan hop
      exact ⟨hf.move (Nat.le_add_right _ _) (by omega) (List.forall_mem_cons.2 ⟨hl, hls⟩),
        Nat.lt_add_of_pos_right hpos⟩
    · exact htake
  · exact htake

theorem Fits.sound_turnField {h : Head σ} (hf : h.Fits cs tags) {l : Listing σ}
    {ls : List (Listing σ)} (hlistings : h.listings = l :: ls) (spec : FieldSpec) :
    (h.turnField v depth cs tags l ls spec).Sound cs tags h := by
  rw [turnField]
  split
  · trivial
  · rename_i c hc
    obtain ⟨hinside, -⟩ := List.getElem?_eq_some_iff.1 hc
    split
    · split
      · trivial
      · rename_i d hd
        obtain ⟨hmore, -⟩ := List.getElem?_eq_some_iff.1 hd
        exact hf.sound_take (by decide) hmore d
    · split
      · exact hf.sound_endField hlistings hinside spec c
      · split
        · rename_i p hp
          obtain ⟨hahead, hhere⟩ := Option.filter_eq_some_iff.1 hp
          exact hf.seek.sound_enter htags hahead (by simpa using hhere)
        · exact hf.seek.sound_passField hlistings hinside spec c

theorem Fits.sound_turnList {h : Head σ} (hf : h.Fits cs tags) {l : Listing σ}
    {ls : List (Listing σ)} (hlistings : h.listings = l :: ls) :
    (h.turnList v depth cs tags l ls).Sound cs tags h := by
  obtain ⟨hl, hls⟩ := List.forall_mem_cons.1 (hlistings ▸ hf.specs)
  rw [turnList]
  split
  · split
    · trivial
    · rename_i c hc
      obtain ⟨hinside, -⟩ := List.getElem?_eq_some_iff.1 hc
      split
      · exact ⟨(hf.move (Nat.le_succ _) hinside hls).complete .., by simp [Head.complete]⟩
      · trivial
  · rename_i first specs hfields
    have hspec : l.spec < l.schema.fields.length := hl.resolve_left fun hnil => by
      rw [hnil] at hfields
      cases hfields
    rw [List.getElem?_eq_getElem hspec]
    exact hf.sound_turnField htags hlistings _

/-- **A head does not stray, and each turn brings it on.** Where it goes it fits the text. -/
theorem Fits.sound_turn (v : Vocabulary σ) (depth : Nat) {h : Head σ} (hf : h.Fits cs tags) :
    (h.turn v depth cs tags).Sound cs tags h := by
  rw [turn]
  split
  · exact hf.sound_turnText htags
  · rename_i l ls hlistings
    exact hf.sound_turnList htags hlistings

end

/-! ### Runs -/

theorem fits_start (cs : List Char) (tags : List Tag.Placed) : Fits cs tags ({} : Head σ) :=
  ⟨Nat.zero_le _, Nat.zero_le _, List.forall_mem_nil _, List.forall_mem_nil _⟩

section
variable (htags : ∀ p ∈ tags, p.start < p.stop ∧ p.stop ≤ cs.length)
include htags

/-- A head fits the text wherever it comes to, and it never comes back. -/
theorem Fits.reaches {h h' : Head σ} (hf : h.Fits cs tags) (hr : h.Reaches v depth cs tags h') :
    h'.Fits cs tags ∧ h.index ≤ h'.index := by
  induction hr with
  | refl => exact ⟨hf, Nat.le_refl _⟩
  | tail _ hgoes ih =>
    obtain ⟨hfits, hle⟩ := ih
    have hsound := hfits.sound_turn htags v depth
    rw [hgoes] at hsound
    exact ⟨hsound.1, Nat.le_of_lt (Nat.lt_of_le_of_lt hle hsound.2)⟩

/-- **Every run ends.** -/
theorem Fits.exists_end (v : Vocabulary σ) (depth : Nat) {h : Head σ} (hf : h.Fits cs tags) :
    ∃ h' result, h.Reaches v depth cs tags h' ∧ h'.turn v depth cs tags = .ends result := by
  have hsound := hf.sound_turn htags v depth
  cases hturn : h.turn v depth cs tags with
  | strays =>
    rw [hturn] at hsound
    exact hsound.elim
  | ends result => exact ⟨h, result, .refl, hturn⟩
  | goes next =>
    rw [hturn] at hsound
    obtain ⟨hfits, hlt⟩ := hsound
    have hle := hfits.index_le
    obtain ⟨h', result, hr, hend⟩ := hfits.exists_end v depth
    exact ⟨h', result, .head hturn hr, hend⟩
termination_by cs.length - h.index

end

end Head

end TagTemplate.Program
