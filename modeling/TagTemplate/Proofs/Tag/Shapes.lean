import Mathlib.Data.List.TakeWhile
import TagTemplate.Proofs.Text.Spans
import TagTemplate.Tag.Shape

/-! The shapes of a text.

`IsShape` is the grammar of a shape: a dollar sign, a name that is as long as it can be, and an
argument list behind it up to the first closing bracket, if there is one. A text is gone through
from left to right, and a shape is passed over once it is found. So the spans that are found are in
order, each is that of a shape of the text, and no place where a shape could begin is outside of
them all. There is only one list of spans of which this can be said: `shapesFrom_iff`. -/
namespace TagTemplate.Tag

/-! ### The grammar -/

/-- Whether a character is an ASCII letter or an underscore. -/
def NameStart (c : Char) : Prop := ('A' ≤ c ∧ c ≤ 'Z') ∨ ('a' ≤ c ∧ c ≤ 'z') ∨ c = '_'

/-- Whether a character is an ASCII letter, an ASCII digit or an underscore. -/
def NamePart (c : Char) : Prop := NameStart c ∨ ('0' ≤ c ∧ c ≤ '9')

theorem startsName_iff {c : Char} : startsName c = true ↔ NameStart c := by
  have hstarts : startsName c = (decide ('A' ≤ c ∧ c ≤ 'Z') ||
      (decide ('a' ≤ c) && decide (c ≤ 'z')) || c == '_') := rfl
  simp only [hstarts, NameStart, Bool.or_eq_true, Bool.and_eq_true, decide_eq_true_eq, beq_iff_eq,
    or_assoc]

theorem continuesName_iff {c : Char} : continuesName c = true ↔ NamePart c := by
  rw [NamePart, ← startsName_iff]
  simp only [continuesName, startsName, Char.isAlphanum, Char.isDigit, Bool.or_eq_true,
    Bool.and_eq_true, decide_eq_true_eq, beq_iff_eq, Char.le_def, ge_iff_le, or_right_comm]

/-- Whether the text before some rest is a shape, given that rest. -/
inductive IsShape : List Char → List Char → Prop
  /-- A name without an argument list: it is as long as it can be, and where an opening bracket
  follows, no closing one does. -/
  | bare {first name behind} (starts : NameStart first) (goesOn : ∀ c ∈ name, NamePart c)
      (ends : ∀ c ∈ behind.head?, ¬ NamePart c)
      (unlisted : ∀ inner rest, behind ≠ '[' :: (inner ++ ']' :: rest)) :
      IsShape ('$' :: first :: name) behind
  /-- A name with an argument list, which goes on through the first closing bracket. -/
  | listed {first name inner behind} (starts : NameStart first) (goesOn : ∀ c ∈ name, NamePart c)
      (closes : ']' ∉ inner) :
      IsShape ('$' :: first :: (name ++ '[' :: (inner ++ [']']))) behind

theorem takeWhile_of_closed {inner : List Char} (closes : ']' ∉ inner) (rest : List Char) :
    (inner ++ ']' :: rest).takeWhile (· != ']') = inner := by
  have hinner : ∀ c ∈ inner, (c != ']') = true := fun c hc => by
    have hne : c ≠ ']' := fun heq => closes (heq ▸ hc)
    simpa using hne
  rw [List.takeWhile_append_of_pos hinner, List.takeWhile_cons_of_neg (by decide),
    List.append_nil]

theorem bracketed_of_closed {inner : List Char} (closes : ']' ∉ inner) (rest : List Char) :
    bracketed ('[' :: (inner ++ ']' :: rest)) = '[' :: (inner ++ [']']) := by
  simp [bracketed, takeWhile_of_closed closes]

theorem bracketed_of_unlisted {cs : List Char}
    (unlisted : ∀ inner rest, cs ≠ '[' :: (inner ++ ']' :: rest)) : bracketed cs = [] := by
  unfold bracketed
  split
  · rename_i cs
    have hnone : ']' ∉ cs := fun hmem => by
      obtain ⟨inner, rest, rfl⟩ := List.append_of_mem hmem
      exact unlisted inner rest rfl
    have hall : ∀ c ∈ cs, (c != ']') = true := fun c hc => by
      have hne : c ≠ ']' := fun heq => hnone (heq ▸ hc)
      simpa using hne
    dsimp only
    rw [List.takeWhile_eq_self_iff.2 hall, if_neg (Nat.lt_irrefl _)]
  · rfl

/-- A name is read as far as it goes. -/
theorem takeWhile_name {name behind : List Char} (goesOn : ∀ c ∈ name, NamePart c)
    (ends : ∀ c ∈ behind.head?, ¬ NamePart c) :
    (name ++ behind).takeWhile continuesName = name := by
  rw [List.takeWhile_append_of_pos fun c hc => continuesName_iff.2 (goesOn c hc)]
  cases behind with
  | nil => simp
  | cons c behind =>
    have hc : ¬ continuesName c = true := fun h => ends c rfl (continuesName_iff.1 h)
    rw [List.takeWhile_cons_of_neg hc, List.append_nil]

/-- A shape is found where it begins. -/
theorem IsShape.shapeAt {shape behind : List Char} (h : IsShape shape behind) :
    shapeAt (shape ++ behind) = some shape := by
  cases h with
  | @bare first name _ starts goesOn ends unlisted =>
    simp only [List.cons_append, Tag.shapeAt, startsName_iff.2 starts, if_true,
      takeWhile_name goesOn ends, List.drop_left, bracketed_of_unlisted unlisted, List.append_nil]
  | @listed first name inner _ starts goesOn closes =>
    have ends : ∀ c ∈ ('[' :: (inner ++ ']' :: behind)).head?, ¬ NamePart c := by
      rintro c hc hpart
      cases hc
      exact absurd (continuesName_iff.2 hpart) (by decide)
    have hsplit : '$' :: first :: (name ++ '[' :: (inner ++ [']'])) ++ behind =
        '$' :: first :: (name ++ '[' :: (inner ++ ']' :: behind)) := by simp
    simp only [hsplit, Tag.shapeAt, startsName_iff.2 starts, if_true,
      takeWhile_name goesOn ends, List.drop_left, bracketed_of_closed closes]

/-- Wherever a name begins behind a dollar sign there is a shape. -/
theorem exists_isShape {first : Char} (starts : NameStart first) (cs : List Char) :
    ∃ shape behind, '$' :: first :: cs = shape ++ behind ∧ IsShape shape behind := by
  have hcs : cs.takeWhile continuesName ++ cs.dropWhile continuesName = cs :=
    List.takeWhile_append_dropWhile
  have goesOn : ∀ c ∈ cs.takeWhile continuesName, NamePart c := fun c hc =>
    continuesName_iff.1 (List.mem_takeWhile_imp hc)
  by_cases hlist : ∃ inner rest, cs.dropWhile continuesName = '[' :: (inner ++ ']' :: rest)
  · obtain ⟨inner, rest, hlist⟩ := hlist
    -- The list goes on through the first closing bracket, which may come before this one.
    obtain ⟨inner', rest', hfirst, closes⟩ :=
      List.eq_append_cons_of_mem (show ']' ∈ inner ++ ']' :: rest by simp)
    rw [hlist, hfirst] at hcs
    refine ⟨_, rest', ?_, .listed starts goesOn closes⟩
    simpa using hcs.symm
  · refine ⟨_, cs.dropWhile continuesName, ?_, .bare starts goesOn ?_ ?_⟩
    · rw [List.cons_append, List.cons_append, hcs]
    · intro c hc hpart
      have hnot := List.head?_dropWhile_not continuesName cs
      rw [Option.mem_def.1 hc] at hnot
      exact absurd (continuesName_iff.2 hpart) (Bool.eq_false_iff.1 hnot)
    · exact fun inner rest heq => hlist ⟨inner, rest, heq⟩

theorem IsShape.ne_nil {shape behind : List Char} (h : IsShape shape behind) : shape ≠ [] := by
  cases h <;> exact List.cons_ne_nil _ _

/-- A shape begins with a dollar sign and a name. -/
theorem IsShape.starts {shape behind : List Char} (h : IsShape shape behind) :
    ∃ first rest, shape = '$' :: first :: rest ∧ NameStart first := by
  cases h with
  | bare starts => exact ⟨_, _, rfl, starts⟩
  | listed starts => exact ⟨_, _, rfl, starts⟩

/-- At one place of a text there is one shape. -/
theorem IsShape.unique {shape behind shape' behind' : List Char} (h : IsShape shape behind)
    (h' : IsShape shape' behind') (heq : shape ++ behind = shape' ++ behind') : shape = shape' := by
  have hfound := h.shapeAt
  rw [heq, h'.shapeAt] at hfound
  exact (Option.some.inj hfound).symm

/-- Where no shape is found none begins. -/
theorem not_nameStart_of_shapeAt {first : Char} {cs : List Char}
    (h : shapeAt ('$' :: first :: cs) = none) : ¬ NameStart first := by
  intro starts
  obtain ⟨shape, behind, heq, hshape⟩ := exists_isShape starts cs
  rw [heq, hshape.shapeAt] at h
  cases h

/-- What is found at the start of a text is a shape. -/
theorem isShape_of_shapeAt {cs shape : List Char} (h : shapeAt cs = some shape) :
    ∃ behind, cs = shape ++ behind ∧ IsShape shape behind := by
  unfold shapeAt at h
  split at h
  · rename_i first cs
    split at h
    · rename_i hstarts
      obtain ⟨shape', behind, heq, hshape⟩ := exists_isShape (startsName_iff.1 hstarts) cs
      have hfound := hshape.shapeAt
      rw [← heq, shapeAt, if_pos hstarts, h] at hfound
      cases hfound
      exact ⟨behind, heq, hshape⟩
    · cases h
  · cases h

/-! ### Going through a text -/

/-- The spans of the shapes of a text that begins at an offset. -/
def spansAt (offset : Nat) (cs : List Char) : List Text.Span :=
  spansFrom offset (marks shapeAt List.length cs)

/-- The characters of a shape are passed over. -/
theorem spansFrom_skip (offset skip : Nat) (cs : List Char) :
    spansFrom offset (marksFrom shapeAt List.length skip cs) =
      spansAt (offset + Text.byteWidth (cs.take skip)) (cs.drop skip) := by
  induction skip generalizing offset cs with
  | zero => rfl
  | succ skip ih =>
    cases cs with
    | nil => rfl
    | cons c cs =>
      rw [marksFrom, spansFrom, ih, List.take_succ_cons, Text.byteWidth_cons, Nat.add_assoc,
        List.drop_succ_cons]

theorem spansAt_shape {shape behind : List Char} (h : IsShape shape behind) (offset : Nat) :
    spansAt offset (shape ++ behind) =
      Text.spanAt offset shape :: spansAt (offset + Text.byteWidth shape) behind := by
  obtain ⟨c, rest, rfl⟩ := List.exists_cons_of_ne_nil h.ne_nil
  have hfound := h.shapeAt
  rw [List.cons_append] at hfound
  rw [List.cons_append, spansAt, marks, marksFrom, hfound]
  simp only [spansFrom, spansFrom_skip, List.length_cons, Nat.add_sub_cancel, List.take_left,
    List.drop_left, Text.byteWidth_cons, Nat.add_assoc, Text.spanAt]

theorem spansAt_char {c : Char} {cs : List Char} (h : shapeAt (c :: cs) = none) (offset : Nat) :
    spansAt offset (c :: cs) = spansAt (offset + c.utf8Size) cs := by
  rw [spansAt, marks, marksFrom, h]
  rfl

/-- Whether some spans are those of the shapes of a text that begins at an offset. -/
structure ShapesFrom (offset : Nat) (cs : List Char) (spans : List Text.Span) : Prop where
  /-- They come one after the other, and no two have a byte in common. -/
  ordered : spans.Pairwise fun a b => a.stop ≤ b.start
  /-- Each is the span of a shape. -/
  shaped : ∀ span ∈ spans, ∃ before shape behind, cs = before ++ (shape ++ behind) ∧
    IsShape shape behind ∧ span = Text.spanAt (offset + Text.byteWidth before) shape
  /-- Each place where a name begins behind a dollar sign is in one of them. -/
  found : ∀ before first behind, cs = before ++ '$' :: first :: behind → NameStart first →
    ∃ span ∈ spans, span.Has (offset + Text.byteWidth before)

theorem shapesFrom_nil_iff {offset : Nat} {spans : List Text.Span} :
    ShapesFrom offset [] spans ↔ spans = [] := by
  constructor
  · intro h
    refine List.eq_nil_iff_forall_not_mem.2 fun span hspan => ?_
    obtain ⟨before, shape, behind, hcs, hshape, -⟩ := h.shaped span hspan
    have hnil := (List.append_eq_nil_iff.1 (List.append_eq_nil_iff.1 hcs.symm).2).1
    exact hshape.ne_nil hnil
  · rintro rfl
    refine ⟨.nil, List.forall_mem_nil _, fun before first behind hcs _ => ?_⟩
    exact absurd hcs.symm (List.append_ne_nil_of_right_ne_nil _ (List.cons_ne_nil _ _))

/-- Where no shape begins, the shapes are those behind the first character. -/
theorem shapesFrom_char_iff {offset : Nat} {c : Char} {cs : List Char} {spans : List Text.Span}
    (hnone : shapeAt (c :: cs) = none) :
    ShapesFrom offset (c :: cs) spans ↔ ShapesFrom (offset + c.utf8Size) cs spans := by
  constructor
  · rintro ⟨ordered, shaped, found⟩
    refine ⟨ordered, fun span hspan => ?_, fun before first behind hcs starts => ?_⟩
    · obtain ⟨before, shape, behind, hcs, hshape, rfl⟩ := shaped span hspan
      cases before with
      | nil =>
        rw [hcs, List.nil_append, hshape.shapeAt] at hnone
        cases hnone
      | cons d before =>
        obtain ⟨rfl, rfl⟩ := List.cons.inj hcs
        exact ⟨before, shape, behind, rfl, hshape, by rw [Text.byteWidth_cons, Nat.add_assoc]⟩
    · obtain ⟨span, hspan, hhas⟩ := found (c :: before) first behind (by rw [hcs]; rfl) starts
      rw [Text.byteWidth_cons, ← Nat.add_assoc] at hhas
      exact ⟨span, hspan, hhas⟩
  · rintro ⟨ordered, shaped, found⟩
    refine ⟨ordered, fun span hspan => ?_, fun before first behind hcs starts => ?_⟩
    · obtain ⟨before, shape, behind, rfl, hshape, rfl⟩ := shaped span hspan
      exact ⟨c :: before, shape, behind, rfl, hshape, by rw [Text.byteWidth_cons, Nat.add_assoc]⟩
    · cases before with
      | nil =>
        rw [hcs] at hnone
        exact absurd starts (not_nameStart_of_shapeAt hnone)
      | cons d before =>
        obtain ⟨rfl, rfl⟩ := List.cons.inj hcs
        obtain ⟨span, hspan, hhas⟩ := found before first behind rfl starts
        rw [Nat.add_assoc, ← Text.byteWidth_cons] at hhas
        exact ⟨span, hspan, hhas⟩

/-- Where the spans are those of a text that begins with a shape, the first is that of the shape,
and the others come behind it. -/
theorem ShapesFrom.first {offset : Nat} {shape behind : List Char} {spans : List Text.Span}
    (h : ShapesFrom offset (shape ++ behind) spans) (hshape : IsShape shape behind) :
    ∃ later, spans = Text.spanAt offset shape :: later ∧
      ∀ span ∈ later, offset + Text.byteWidth shape ≤ span.start := by
  obtain ⟨first, rest, hbegins, starts⟩ := hshape.starts
  obtain ⟨span, hspan, hhas⟩ := h.found [] first (rest ++ behind) (by rw [hbegins]; rfl) starts
  obtain ⟨before, shape', behind', hcs, hshape', rfl⟩ := h.shaped span hspan
  -- The span that the first place is in begins there, so it is that of the shape.
  obtain rfl : before = [] := Text.byteWidth_eq_zero_iff.1 (Nat.le_zero.1 (Nat.add_le_add_iff_left.1
    hhas.1))
  obtain rfl := hshape.unique hshape' hcs
  obtain ⟨earlier, later, rfl⟩ := List.append_of_mem hspan
  have hordered := List.pairwise_append.1 h.ordered
  cases earlier with
  | nil => exact ⟨later, rfl, (List.pairwise_cons.1 hordered.2.1).1⟩
  | cons span earlier =>
    -- A span before it would have no byte.
    obtain ⟨before', shape'', behind'', -, hshape'', rfl⟩ := h.shaped span (by simp)
    have hle := hordered.2.2 _ List.mem_cons_self _ List.mem_cons_self
    have hpos := Text.byteWidth_pos hshape''.ne_nil
    simp only [Text.spanAt] at hle
    rw [Text.byteWidth_nil] at hle
    omega

/-- Where a shape begins, its span is the first, and the others are those of the shapes behind. -/
theorem shapesFrom_shape_iff {offset : Nat} {shape behind : List Char} {spans : List Text.Span}
    (hshape : IsShape shape behind) :
    ShapesFrom offset (shape ++ behind) spans ↔ ∃ later,
      spans = Text.spanAt offset shape :: later ∧
        ShapesFrom (offset + Text.byteWidth shape) behind later := by
  constructor
  · intro h
    obtain ⟨later, rfl, hlater⟩ := h.first hshape
    refine ⟨later, rfl, (List.pairwise_cons.1 h.ordered).2, fun span hspan => ?_,
      fun before first behind' hbehind starts => ?_⟩
    · obtain ⟨before, shape', behind', hcs, hshape', rfl⟩ :=
        h.shaped span (List.mem_cons_of_mem _ hspan)
      have hle := Nat.add_le_add_iff_left.1 (hlater _ hspan)
      obtain ⟨between, rfl, rfl⟩ := Text.eq_append_of_byteWidth_le hcs hle
      exact ⟨between, shape', behind', rfl, hshape', by
        rw [Text.byteWidth_append, Nat.add_assoc]⟩
    · obtain ⟨span, hspan, hhas⟩ := h.found (shape ++ before) first behind' (by
        rw [hbehind, List.append_assoc]) starts
      rw [Text.byteWidth_append, ← Nat.add_assoc] at hhas
      cases hspan with
      | head => exact absurd hhas.2 (Nat.not_lt.2 (Nat.le_add_right _ _))
      | tail _ hspan => exact ⟨span, hspan, hhas⟩
  · rintro ⟨later, rfl, ordered, shaped, found⟩
    refine ⟨List.pairwise_cons.2 ⟨fun span hspan => ?_, ordered⟩, ?_,
      fun before first behind' hcs starts => ?_⟩
    · obtain ⟨before, shape', behind', -, -, rfl⟩ := shaped span hspan
      exact Nat.le_add_right _ _
    · refine List.forall_mem_cons.2 ⟨⟨[], shape, behind, rfl, hshape, rfl⟩, fun span hspan => ?_⟩
      obtain ⟨before, shape', behind', rfl, hshape', rfl⟩ := shaped span hspan
      exact ⟨shape ++ before, shape', behind', (List.append_assoc ..).symm, hshape', by
        rw [Text.byteWidth_append, Nat.add_assoc]⟩
    · by_cases hle : Text.byteWidth shape ≤ Text.byteWidth before
      · obtain ⟨between, rfl, rfl⟩ := Text.eq_append_of_byteWidth_le hcs hle
        obtain ⟨span, hspan, hhas⟩ := found between first behind' rfl starts
        rw [Nat.add_assoc, ← Text.byteWidth_append] at hhas
        exact ⟨span, List.mem_cons_of_mem _ hspan, hhas⟩
      · exact ⟨_, List.mem_cons_self, Nat.le_add_right _ _,
          Nat.add_lt_add_left (Nat.lt_of_not_le hle) _⟩

/-- **Only the spans that are found are those of the shapes.** -/
theorem shapesFrom_iff (offset : Nat) (cs : List Char) (spans : List Text.Span) :
    ShapesFrom offset cs spans ↔ spans = spansAt offset cs := by
  match cs with
  | [] => exact shapesFrom_nil_iff
  | c :: cs =>
    cases hfound : shapeAt (c :: cs) with
    | none => rw [shapesFrom_char_iff hfound, spansAt_char hfound, shapesFrom_iff]
    | some shape =>
      obtain ⟨behind, hcs, hshape⟩ := isShape_of_shapeAt hfound
      have hlt : behind.length < cs.length + 1 := by
        have hlength := congrArg List.length hcs
        have hpos := List.length_pos_iff.2 hshape.ne_nil
        rw [List.length_append, List.length_cons] at hlength
        omega
      rw [hcs, shapesFrom_shape_iff hshape, spansAt_shape hshape]
      constructor
      · rintro ⟨later, rfl, hlater⟩
        rw [(shapesFrom_iff _ behind later).1 hlater]
      · rintro rfl
        exact ⟨_, rfl, (shapesFrom_iff _ behind _).2 rfl⟩
termination_by cs.length

/-! ### The shapes of a text -/

/-- The spans that are found are those of the shapes. -/
theorem shapesFrom_shapeSpans (s : String) : ShapesFrom 0 s.toList (shapeSpans s) :=
  (shapesFrom_iff 0 s.toList _).2 rfl

theorem spansFrom_eq_nil_iff {offset : Nat} {ms : List (Char × Option (List Char))} :
    spansFrom offset ms = [] ↔ ms.any (·.2.isSome) = false := by
  induction ms generalizing offset with
  | nil => exact iff_of_true rfl rfl
  | cons m ms ih =>
    obtain ⟨c, _ | shape⟩ := m
    · exact ih
    · exact iff_of_false (List.cons_ne_nil _ _) Bool.noConfusion

/-- A text without a shape is one in which no span is found. -/
theorem shapeSpans_eq_nil_iff {s : String} : shapeSpans s = [] ↔ hasShape s = false :=
  spansFrom_eq_nil_iff

/-- A text has a shape exactly where a name begins behind a dollar sign. -/
theorem hasShape_iff {s : String} :
    hasShape s = true ↔
      ∃ before first behind, s.toList = before ++ '$' :: first :: behind ∧ NameStart first := by
  have hspans := shapesFrom_shapeSpans s
  rw [← Bool.not_eq_false, ← shapeSpans_eq_nil_iff]
  constructor
  · intro hne
    obtain ⟨span, hspan⟩ := List.exists_mem_of_ne_nil _ hne
    obtain ⟨before, shape, behind, hcs, hshape, -⟩ := hspans.shaped span hspan
    obtain ⟨first, rest, rfl, starts⟩ := hshape.starts
    exact ⟨before, first, rest ++ behind, hcs, starts⟩
  · rintro ⟨before, first, behind, hcs, starts⟩
    obtain ⟨span, hspan, -⟩ := hspans.found before first behind hcs starts
    exact List.ne_nil_of_mem hspan

/-- **The shapes of a text are those of the grammar.** The spans that are found are in order and
apart, each is that of a shape, and every dollar sign before the beginning of a name is in one of
them; and they are the only spans of which this is so. A text has a shape exactly where there is
such a dollar sign. -/
theorem shapeSpans_exact (s : String) :
    ShapesFrom 0 s.toList (shapeSpans s) ∧
    (∀ spans, ShapesFrom 0 s.toList spans → spans = shapeSpans s) ∧
    (hasShape s = true ↔
      ∃ before first behind, s.toList = before ++ '$' :: first :: behind ∧ NameStart first) :=
  ⟨shapesFrom_shapeSpans s, fun spans => (shapesFrom_iff 0 s.toList spans).1, hasShape_iff⟩

/-- A dollar sign before another one, wide characters, a shape in the list of another one, a list
that is never closed. -/
example : shapeSpans "$$é$é $a[$b]é$c1[\n$d" = [⟨8, 14⟩, ⟨16, 19⟩, ⟨21, 23⟩] := by decide +kernel

end TagTemplate.Tag
