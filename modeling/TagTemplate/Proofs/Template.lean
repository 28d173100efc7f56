import TagTemplate.Proofs.Text.Spans
import TagTemplate.Template

/-! Building templates and filling them.

A template is built step by step from characters, texts and slots. What comes out is told by the
parts alone, that is by the literal characters and the slots in their order: it makes no difference
in which steps the characters came (`Builder.settled_build`). Filled with values, each segment
takes up a span of the text. The spans follow one another from the beginning of the text to its
end, and where the text is cut at one of them, there is what its segment shows
(`tiled_spans`). -/
namespace TagTemplate

/-- A part of a text: a literal character, or something in a slot. -/
inductive Part (ι : Type) where
  | char (c : Char)
  | slot (i : ι)

namespace Part
variable {ι κ : Type}

/-- A part with something else in its slot. -/
def map (f : ι → κ) : Part ι → Part κ
  | .char c => .char c
  | .slot i => .slot (f i)

/-- The literal text before the first slot, and each slot with the text after it. -/
def split : List (Part ι) → List Char × List (ι × List Char)
  | [] => ([], [])
  | .char c :: parts => (c :: (split parts).1, (split parts).2)
  | .slot i :: parts => ([], (i, (split parts).1) :: (split parts).2)

theorem split_map (f : ι → κ) (parts : List (Part ι)) :
    split (parts.map (map f)) =
      ((split parts).1, (split parts).2.map fun slot => (f slot.1, slot.2)) := by
  induction parts with
  | nil => rfl
  | cons part parts ih => cases part <;> simp [map, split, ih]

theorem split_chars_append (cs : List Char) (parts : List (Part ι)) :
    split (cs.map .char ++ parts) = (cs ++ (split parts).1, (split parts).2) := by
  induction cs with
  | nil => rfl
  | cons c cs ih => rw [List.map_cons, List.cons_append, split, ih, List.cons_append]

end Part

/-- What a segment stands for: literal characters, or a slot. -/
def Segment.parts : Segment → List (Part Unit)
  | .text content => content.toList.map .char
  | .slot _ => [.slot ()]

namespace Template
variable {ι κ : Type}

/-- The segments of a literal text; an empty one has none. -/
def stretch (cs : List Char) : List Segment :=
  if cs.isEmpty then [] else [.text (String.ofList cs)]

/-- The segments of some slots, numbered from a position on, each with the text after
it. -/
def slotted (position : Nat) : List (ι × List Char) → List Segment
  | [] => []
  | (_, cs) :: rest => .slot position :: (stretch cs ++ slotted (position + 1) rest)

/-- Segments do not tell what is in the slots. -/
theorem slotted_split_map (position : Nat) (f : ι → κ) (parts : List (Part ι)) :
    slotted position (Part.split (parts.map (Part.map f))).2 =
      slotted position (Part.split parts).2 := by
  rw [Part.split_map]
  induction (Part.split parts).2 generalizing position with
  | nil => rfl
  | cons slot slots ih =>
    rw [List.map_cons, slotted, slotted]
    exact congrArg _ (congrArg _ (ih (position + 1)))

theorem parts_stretch (cs : List Char) : (stretch cs).flatMap Segment.parts = cs.map .char := by
  unfold stretch
  split
  · rename_i hcs
    rw [List.isEmpty_iff.1 hcs]
    rfl
  · simp [Segment.parts]

/-- The segments of some parts stand for these parts. -/
theorem parts_slotted (position : Nat) (parts : List (Part Unit)) :
    (stretch (Part.split parts).1 ++ slotted position (Part.split parts).2).flatMap Segment.parts =
      parts := by
  induction parts generalizing position with
  | nil => rfl
  | cons part parts ih =>
    rw [List.flatMap_append, parts_stretch]
    cases part with
    | char c =>
      have hlater := ih position
      rw [List.flatMap_append, parts_stretch] at hlater
      rw [Part.split, List.map_cons, List.cons_append, hlater]
    | slot i => rw [Part.split, slotted, List.flatMap_cons, ih]; rfl

/-! ### Building -/

namespace Builder

/-- A step in building a template. -/
inductive Step where
  | char (c : Char)
  | text (content : String)
  | slot (placeholder : String)

/-- What a step appends: literal characters, or a slot with its placeholder. -/
def Step.parts : Step → List (Part String)
  | .char c => [.char c]
  | .text content => content.toList.map .char
  | .slot placeholder => [.slot placeholder]

/-- A builder after a step. -/
def perform (b : Builder) : Step → Builder
  | .char c => b.push c
  | .text content => b.pushText content
  | .slot placeholder => b.pushSlot placeholder

/-- A builder after some steps. -/
def build (b : Builder) (steps : List Step) : Builder := steps.foldl perform b

theorem settled_eq (b : Builder) : b.settled = b.segments ++ stretch b.pending.toList := by
  unfold settled stretch
  by_cases h : b.pending = ""
  · simp [h]
  · have hne : b.pending.toList ≠ [] := by simpa using h
    simp [h, hne]

/-- **Segments come from parts**: pending text and the text before the first slot become one
segment, in whatever steps it came. -/
theorem settled_build (b : Builder) (steps : List Step) :
    (b.build steps).settled =
      b.segments ++ (stretch (b.pending.toList ++ (Part.split (steps.flatMap Step.parts)).1) ++
        slotted b.slots (Part.split (steps.flatMap Step.parts)).2) := by
  induction steps generalizing b with
  | nil => simp [build, settled_eq, Part.split, slotted]
  | cons step steps ih =>
    rw [build, List.foldl_cons, ← build, ih, List.flatMap_cons]
    cases step with
    | char c => simp [perform, push, Step.parts, Part.split]
    | text content => simp [perform, pushText, Step.parts, Part.split_chars_append]
    | slot placeholder => simp [perform, pushSlot, settled_eq, Step.parts, Part.split, slotted]

/-- The code that parts make up, with a placeholder in each slot. -/
theorem code_build (b : Builder) (steps : List Step) :
    (b.build steps).code.toList =
      b.code.toList ++ ((Part.split (steps.flatMap Step.parts)).1 ++
        (Part.split (steps.flatMap Step.parts)).2.flatMap fun slot => slot.1.toList ++ slot.2) := by
  induction steps generalizing b with
  | nil => simp [build, Part.split]
  | cons step steps ih =>
    rw [build, List.foldl_cons, ← build, ih, List.flatMap_cons]
    cases step with
    | char c => simp [perform, push, Step.parts, Part.split]
    | text content => simp [perform, pushText, Step.parts, Part.split_chars_append]
    | slot placeholder => simp [perform, pushSlot, Step.parts, Part.split]

/-- The literal characters and the slots of some steps, in order; what the placeholders are is
left out. -/
def outline (steps : List Step) : List (Part Unit) :=
  (steps.flatMap Step.parts).map (Part.map fun _ => ())

/-- A finished template is that of the outline of the steps that it was built in. -/
theorem finish_build (steps : List Step) :
    (build {} steps).finish =
      ⟨stretch (Part.split (outline steps)).1 ++ slotted 0 (Part.split (outline steps)).2⟩ := by
  rw [finish, settled_build, outline, slotted_split_map, Part.split_map]
  rfl

end Builder

/-! ### Filling -/

theorem length_tile (offset : Nat) (pieces : List String) :
    (tile offset pieces).length = pieces.length := by
  induction pieces generalizing offset with
  | nil => rfl
  | cons piece pieces ih => rw [tile, List.length_cons, ih, List.length_cons]

/-- A span begins behind all pieces before its own, and is as wide as that. -/
theorem getElem?_tile (offset : Nat) (pieces : List String) (i : Nat) :
    (tile offset pieces)[i]? = pieces[i]?.map fun piece =>
      Text.spanAt (offset + Text.byteWidth (String.join (pieces.take i)).toList) piece.toList := by
  induction pieces generalizing offset i with
  | nil => rfl
  | cons piece pieces ih =>
    cases i with
    | zero => rfl
    | succ i =>
      rw [tile, List.getElem?_cons_succ, List.getElem?_cons_succ, ih, List.take_succ_cons,
        String.join_cons, String.toList_append, Text.byteWidth_append, Nat.add_assoc]

/-- How spans lie in the text that a template gives for some values. -/
structure Tiled (t : Template) (values : List Json) (text : String) (spans : List Text.Span) :
    Prop where
  /-- There is one span for each segment. -/
  length : spans.length = t.segments.length
  /-- The first begins where the text does. -/
  first : ∀ span ∈ spans.head?, span.start = 0
  /-- Each begins where the one before it ends. -/
  joined : ∀ (i : Nat) (a b : Text.Span), spans[i]? = some a → spans[i + 1]? = some b →
    b.start = a.stop
  /-- The last ends where the text does. -/
  last : ∀ span ∈ spans.getLast?, span.stop = text.utf8ByteSize
  /-- Without a segment there is no text. -/
  empty : t.segments = [] → text = ""
  /-- A literal stands at its span. -/
  literal : ∀ (i : Nat) (content : String) (span : Text.Span),
    t.segments[i]? = some (.text content) → spans[i]? = some span →
      Text.cut text.toList span = some content.toList
  /-- At the span of a slot stands the value with its number. -/
  value : ∀ (i position : Nat) (v : Json) (span : Text.Span),
    t.segments[i]? = some (.slot position) → values[position]? = some v → spans[i]? = some span →
      Text.cut text.toList span = some v.display.toList
  /-- Nothing stands there if there is no such value, or it is null. -/
  nothing : ∀ (i position : Nat) (span : Text.Span), t.segments[i]? = some (.slot position) →
    values[position]? = none ∨ values[position]? = some .null → spans[i]? = some span →
      Text.cut text.toList span = some []

/-- A span of a text begins behind what the segments before it show, and is as wide as what its
own segment shows. -/
theorem spans_eq_some_iff {t : Template} {values : List Json} {i : Nat} {span : Text.Span} :
    (t.spans values)[i]? = some span ↔ ∃ segment, t.segments[i]? = some segment ∧
      span = Text.spanAt (Text.byteWidth (String.join ((t.pieces values).take i)).toList)
        (segment.fill values).toList := by
  rw [spans, getElem?_tile, Nat.zero_add, pieces, List.getElem?_map, Option.map_map,
    Option.map_eq_some_iff]
  exact exists_congr fun segment => and_congr_right fun _ => eq_comm

/-- A span ends behind what the segments up to its own show. -/
theorem stop_of_spans {t : Template} {values : List Json} {i : Nat} {span : Text.Span}
    (h : (t.spans values)[i]? = some span) :
    span.stop = Text.byteWidth (String.join ((t.pieces values).take (i + 1))).toList := by
  obtain ⟨segment, hsegment, rfl⟩ := spans_eq_some_iff.1 h
  have htake : (t.pieces values).take (i + 1) =
      (t.pieces values).take i ++ [segment.fill values] := by
    rw [List.take_add_one, pieces, List.getElem?_map, hsegment]
    rfl
  have hone : String.join [segment.fill values] = segment.fill values := by simp
  rw [htake, String.join_append, hone, String.toList_append, Text.byteWidth_append]
  rfl

/-- The text is cut at a span into what its segment shows. -/
theorem cut_resolve {t : Template} {values : List Json} {i : Nat} {segment : Segment}
    {span : Text.Span} (hsegment : t.segments[i]? = some segment)
    (hspan : (t.spans values)[i]? = some span) :
    Text.cut (t.resolve values).toList span = some (segment.fill values).toList := by
  obtain ⟨_, hsame, rfl⟩ := spans_eq_some_iff.1 hspan
  cases hsegment.symm.trans hsame
  have hpiece : (t.pieces values)[i]? = some (segment.fill values) := by
    rw [pieces, List.getElem?_map, hsegment, Option.map_some]
  obtain ⟨hlt, hget⟩ := List.getElem?_eq_some_iff.1 hpiece
  have hsplit : t.pieces values = (t.pieces values).take i ++
      segment.fill values :: (t.pieces values).drop (i + 1) := by
    rw [← hget, List.getElem_cons_drop, List.take_append_drop]
  refine Text.cut_eq_some_iff.2
    ⟨_, (String.join ((t.pieces values).drop (i + 1))).toList, ?_, rfl⟩
  rw [resolve, ← String.toList_append, ← String.toList_append, ← String.join_cons,
    ← String.join_append, ← hsplit]

/-- **Spans tile the text of a template**, whatever the values are and however many. -/
theorem tiled_spans (t : Template) (values : List Json) :
    t.Tiled values (t.resolve values) (t.spans values) where
  length := by rw [spans, length_tile, pieces, List.length_map]
  first span hspan := by
    rw [List.head?_eq_getElem?] at hspan
    obtain ⟨_, -, rfl⟩ := spans_eq_some_iff.1 hspan
    rfl
  joined i a b ha hb := by
    obtain ⟨_, -, rfl⟩ := spans_eq_some_iff.1 hb
    exact (stop_of_spans ha).symm
  last span hspan := by
    rw [List.getLast?_eq_getElem?] at hspan
    have hpos := (List.getElem?_eq_some_iff.1 hspan).1
    have hlength : (t.spans values).length = (t.pieces values).length := length_tile 0 _
    rw [stop_of_spans hspan, List.take_of_length_le (by omega), ← resolve, Text.byteWidth_toList]
  empty h := by rw [resolve, pieces, h]; rfl
  literal i content span hsegment hspan := cut_resolve hsegment hspan
  value i position v span hsegment hvalue hspan := by
    rw [cut_resolve hsegment hspan, Segment.fill, hvalue]
    rfl
  nothing i position span hsegment hvalue hspan := by
    rw [cut_resolve hsegment hspan, Segment.fill]
    rcases hvalue with h | h <;> rw [h] <;> rfl

/-- **A built template and the text it gives.** The segments of a finished template stand for the
literal characters and the slots of the steps that it was built in, and two templates are equal
exactly if these are: it makes no difference in which steps the characters came. Filled with values,
be they fewer than the slots or more, it gives a text that the spans of its segments tile. -/
theorem Builder.tiled_build (steps : List Step) (values : List Json) :
    (build {} steps).finish.segments.flatMap Segment.parts = outline steps ∧
      (∀ others, (build {} others).finish = (build {} steps).finish ↔
        outline others = outline steps) ∧
      (build {} steps).finish.Tiled values ((build {} steps).finish.resolve values)
        ((build {} steps).finish.spans values) := by
  have hparts (steps : List Step) :
      (build {} steps).finish.segments.flatMap Segment.parts = outline steps := by
    rw [finish_build, parts_slotted]
  refine ⟨hparts steps, fun others => ⟨fun h => ?_, fun h => ?_⟩, tiled_spans _ values⟩
  · rw [← hparts others, h, hparts]
  · rw [finish_build, finish_build, h]

/-- Text in two chunks and character by character, a value of three bytes in the first slot and
none in the second. -/
example :
    let steps : List Builder.Step :=
      [.text "a", .text "é", .slot "[@fn:0]", .text "", .slot "[@fn:1]", .char '!']
    let t := (Builder.build {} steps).finish
    t = (Builder.build {} [.char 'a', .char 'é', .slot "", .slot "", .text "!"]).finish ∧
      t.resolve [.string "✓"] = "aé✓!" ∧
      t.spans [.string "✓"] = [⟨0, 3⟩, ⟨3, 6⟩, ⟨6, 6⟩, ⟨6, 7⟩] := by decide

end Template

end TagTemplate
