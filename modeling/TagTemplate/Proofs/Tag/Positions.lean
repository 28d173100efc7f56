import Mathlib.Data.List.Forall2
import TagTemplate.Proofs.Tag.Spelling
import TagTemplate.Proofs.Text.Spans

/-! Where tags stand, in characters.

The tags of a text are located by their bytes, and a reader goes through the text by characters. To
get from one to the other, the text is cut at the ends of each tag, and the characters of the
pieces are counted: `place`. The text can always be cut there, and what comes out are the tags
where they are marked (`place_located`): one after the other, and each is written where it is
placed, behind as many bytes as the characters before it have (`placed_tagMarks`). -/
namespace TagTemplate.Tag

/-- A tag with the characters that it takes up: the first of them, and the first behind it. -/
structure Placed where
  start : Nat
  stop : Nat
  tag : Tag
  deriving DecidableEq

/-- The tags located in a text, placed in characters. So far the text was cut through `bytes`,
which was behind `chars` characters. Nothing if it cannot be cut where a tag begins or ends. -/
def place (cs : List Char) : (bytes chars : Nat) → List (Text.Span × Tag) → Option (List Placed)
  | _, _, [] => some []
  | bytes, chars, (span, tag) :: later =>
    (Text.cut cs ⟨bytes, span.start⟩).bind fun between =>
      (Text.cut cs span).bind fun whole =>
        let start := chars + between.length
        let stop := start + whole.length
        (place cs span.stop stop later).map fun placed => ⟨start, stop, tag⟩ :: placed

/-- The tags among marked characters, placed where they are marked. -/
def placesFrom (index : Nat) : List (Char × Option Tag) → List Placed
  | [] => []
  | (_, some tag) :: ms => ⟨index, index + tag.width, tag⟩ :: placesFrom (index + 1) ms
  | (_, none) :: ms => placesFrom (index + 1) ms

/-- A tag is placed where it is marked. -/
theorem mem_placesFrom {index : Nat} {ms : List (Char × Option Tag)} {p : Placed} :
    p ∈ placesFrom index ms ↔ ∃ (i : Nat) (c : Char), ms[i]? = some (c, some p.tag) ∧
      p.start = index + i ∧ p.stop = p.start + p.tag.width := by
  induction ms generalizing index with
  | nil => exact iff_of_false List.not_mem_nil nofun
  | cons m ms ih =>
    have hlater : p ∈ placesFrom (index + 1) ms ↔
        ∃ (i : Nat) (c : Char), (m :: ms)[i + 1]? = some (c, some p.tag) ∧
          p.start = index + (i + 1) ∧ p.stop = p.start + p.tag.width := by
      rw [ih]
      simp only [List.getElem?_cons_succ, Nat.add_assoc, Nat.add_comm 1]
    obtain ⟨c, _ | tag⟩ := m
    · rw [placesFrom, hlater]
      constructor
      · rintro ⟨i, h⟩
        exact ⟨i + 1, h⟩
      · rintro ⟨_ | i, d, hmark, h⟩
        · cases hmark
        · exact ⟨i, d, hmark, h⟩
    · rw [placesFrom, List.mem_cons, hlater]
      constructor
      · rintro (rfl | ⟨i, h⟩)
        · exact ⟨0, c, rfl, rfl, rfl⟩
        · exact ⟨i + 1, h⟩
      · rintro ⟨_ | i, d, hmark, hstart, hstop⟩
        · obtain ⟨start, stop, tag⟩ := p
          obtain rfl : start = index := hstart
          obtain rfl : stop = start + tag.width := hstop
          cases hmark
          exact .inl rfl
        · exact .inr ⟨i, d, hmark, hstart, hstop⟩

/-- A tag that is located is marked at a character, and its bytes are those of its spelling from
there on. -/
theorem exists_of_mem_located {offset : Nat} {ms : List (Char × Option Tag)} {span : Text.Span}
    {tag : Tag} (h : (span, tag) ∈ located offset ms) :
    ∃ index c, ms[index]? = some (c, some tag) ∧
      span.start = offset + Text.byteWidth ((ms.map (·.1)).take index) ∧
      span.stop = span.start + Text.byteWidth tag.spelling := by
  fun_induction located offset ms with
  | case1 => cases h
  | case2 offset c first rest ih =>
    rcases List.mem_cons.1 h with heq | h
    · cases heq
      exact ⟨0, c, rfl, rfl, rfl⟩
    · obtain ⟨index, d, hmark, hstart, hstop⟩ := ih h
      refine ⟨index + 1, d, hmark, ?_, hstop⟩
      rw [hstart, Nat.add_assoc]
      rfl
  | case3 offset c rest ih =>
    obtain ⟨index, d, hmark, hstart, hstop⟩ := ih h
    refine ⟨index + 1, d, hmark, ?_, hstop⟩
    rw [hstart, Nat.add_assoc]
    rfl

section
variable (words : List (List Char))

/-! ### Tag by tag -/

/-- A text is gone through tag by tag, and character by character between the tags. -/
theorem tag_induction {motive : List Char → Prop} (nil : motive [])
    (char : ∀ c cs, tagAt words (c :: cs) = none → motive cs → motive (c :: cs))
    (tag : ∀ t rest, tagAt words (t.spelling ++ rest) = some t → motive rest →
      motive (t.spelling ++ rest)) (cs : List Char) : motive cs := by
  match cs with
  | [] => exact nil
  | c :: cs =>
    cases h : tagAt words (c :: cs) with
    | none => exact char c cs h (tag_induction nil char tag cs)
    | some t =>
      obtain ⟨rest, hcs, -⟩ := tagAt_eq_append h
      have hle : rest.length ≤ cs.length := length_le_of_spelling hcs
      rw [hcs] at h ⊢
      exact tag t rest h (tag_induction nil char tag rest)
termination_by cs.length

/-- No tag is located inside of another one. -/
theorem located_skip (offset skip : Nat) (cs : List Char) :
    located offset (marksFrom (tagAt words) width skip cs) =
      located (offset + Text.byteWidth (cs.take skip)) (tagMarks words (cs.drop skip)) := by
  induction skip generalizing offset cs with
  | zero => rfl
  | succ skip ih =>
    cases cs with
    | nil => rfl
    | cons c cs =>
      rw [marksFrom, located, ih, List.take_succ_cons, Text.byteWidth_cons, Nat.add_assoc,
        List.drop_succ_cons]

/-- No tag is placed inside of another one. -/
theorem placesFrom_skip (index skip : Nat) (cs : List Char) :
    placesFrom index (marksFrom (tagAt words) width skip cs) =
      placesFrom (index + skip) (tagMarks words (cs.drop skip)) := by
  induction skip generalizing index cs with
  | zero => rfl
  | succ skip ih =>
    cases cs with
    | nil => rfl
    | cons c cs =>
      rw [marksFrom, placesFrom, ih, List.drop_succ_cons, Nat.add_assoc, Nat.add_comm 1]

variable {words}

theorem tagMarks_char {c : Char} {cs : List Char} (h : tagAt words (c :: cs) = none) :
    tagMarks words (c :: cs) = (c, none) :: tagMarks words cs := by
  rw [tagMarks, marks, marksFrom, h]
  rfl

/-- A tag is marked at its dollar sign, and its other characters are passed over. -/
theorem tagMarks_tag {t : Tag} {rest : List Char} (h : tagAt words (t.spelling ++ rest) = some t) :
    ∃ inner, t.spelling = '$' :: inner ∧ tagMarks words (t.spelling ++ rest) =
      ('$', some t) :: marksFrom (tagAt words) width inner.length (inner ++ rest) := by
  refine ⟨_, rfl, ?_⟩
  rw [tagMarks, marks, spelling, List.cons_append, marksFrom]
  rw [spelling, List.cons_append] at h
  rw [h]
  rfl

theorem located_tag {t : Tag} {rest : List Char} (h : tagAt words (t.spelling ++ rest) = some t)
    (offset : Nat) :
    located offset (tagMarks words (t.spelling ++ rest)) = (Text.spanAt offset t.spelling, t) ::
      located (offset + Text.byteWidth t.spelling) (tagMarks words rest) := by
  obtain ⟨inner, hspelling, hmarks⟩ := tagMarks_tag h
  rw [hmarks, located, located_skip, List.take_left, List.drop_left, hspelling, Text.byteWidth_cons,
    Nat.add_assoc]
  rw [Text.spanAt, Text.byteWidth_cons]

theorem placesFrom_tag {t : Tag} {rest : List Char}
    (h : tagAt words (t.spelling ++ rest) = some t) (index : Nat) :
    placesFrom index (tagMarks words (t.spelling ++ rest)) =
      ⟨index, index + t.width, t⟩ :: placesFrom (index + t.width) (tagMarks words rest) := by
  obtain ⟨inner, hspelling, hmarks⟩ := tagMarks_tag h
  have hwidth : t.width = inner.length + 1 := by rw [width, hspelling, List.length_cons]
  rw [hmarks, placesFrom, placesFrom_skip, List.drop_left, hwidth, Nat.add_assoc, Nat.add_comm 1]

end

/-! ### Placing the tags of a text -/

variable {words : List (List Char)}

/-- The text can be cut where tags begin and end, and each tag is placed where it is marked.
`before` ends with a tag, or is empty, and there is no tag in `between`. -/
theorem place_located {all cs : List Char} (before between : List Char)
    (hall : all = before ++ (between ++ cs)) :
    place all (Text.byteWidth before) before.length
        (located (Text.byteWidth before + Text.byteWidth between) (tagMarks words cs)) =
      some (placesFrom (before.length + between.length) (tagMarks words cs)) := by
  induction cs using tag_induction words generalizing before between with
  | nil => rfl
  | char c cs hnone ih =>
    have hbetween : between ++ c :: cs = (between ++ [c]) ++ cs := by simp
    have hlater := ih before (between ++ [c]) (hall.trans (congrArg (before ++ ·) hbetween))
    rw [Text.byteWidth_append, ← Nat.add_assoc, List.length_append, ← Nat.add_assoc] at hlater
    rw [tagMarks_char hnone, located, placesFrom]
    exact hlater
  | tag t rest htag ih =>
    have hgap : Text.cut all
        ⟨Text.byteWidth before, Text.byteWidth before + Text.byteWidth between⟩ = some between :=
      Text.cut_eq_some_iff.2 ⟨before, _, hall, rfl⟩
    have hwhole : Text.cut all
        (Text.spanAt (Text.byteWidth before + Text.byteWidth between) t.spelling) =
          some t.spelling := by
      refine Text.cut_eq_some_iff.2 ⟨before ++ between, rest, ?_, ?_⟩
      · rw [hall, List.append_assoc]
      · rw [Text.byteWidth_append]
    have hlater := ih (before ++ (between ++ t.spelling)) [] (by
      rw [hall, List.nil_append, List.append_assoc, List.append_assoc])
    simp only [Text.byteWidth_append, List.length_append, Text.byteWidth_nil, List.length_nil,
      Nat.add_zero, ← Nat.add_assoc] at hlater
    simp only [Text.spanAt] at hwhole
    rw [located_tag htag, placesFrom_tag htag]
    simp only [place, Text.spanAt, hgap, hwhole, Option.bind_some]
    rw [hlater]
    rfl

/-- How a tag stands in a text, where it is located by its bytes and placed in characters. -/
structure Stands (cs : List Char) (found : Text.Span × Tag) (p : Placed) : Prop where
  tag : p.tag = found.2
  /-- It starts with a dollar sign. -/
  dollar : cs[p.start]? = some '$'
  /-- It ends in the text. -/
  inside : p.stop ≤ cs.length
  /-- Its characters are those that were matched, -/
  matched : Text.cut cs found.1 = some ((cs.drop p.start).take (p.stop - p.start))
  /-- and those that the tag is written with. -/
  written : (cs.drop p.start).take (p.stop - p.start) = p.tag.spelling
  /-- As many bytes come before it, and through its end, as the characters there have. -/
  bytes : found.1 =
    ⟨Text.byteWidth (cs.take p.start), Text.byteWidth (cs.take p.stop)⟩

/-- A tag that is written somewhere stands there. -/
theorem stands_append (before : List Char) (t : Tag) (rest : List Char) :
    Stands (before ++ (t.spelling ++ rest)) (Text.spanAt (Text.byteWidth before) t.spelling, t)
      ⟨before.length, before.length + t.width, t⟩ := by
  have hstop : before.length + t.width = (before ++ t.spelling).length := by
    rw [List.length_append, width]
  have hwritten : ((before ++ (t.spelling ++ rest)).drop before.length).take
      (before.length + t.width - before.length) = t.spelling := by
    rw [List.drop_left, Nat.add_sub_cancel_left, width, List.take_left]
  refine ⟨rfl, ?_, ?_, ?_, hwritten, ?_⟩
  · rw [List.getElem?_append_right (Nat.le_refl _), Nat.sub_self]
    rfl
  · simp only [List.length_append, width]
    omega
  · rw [hwritten]
    exact Text.cut_eq_some_iff.2 ⟨before, rest, rfl, rfl⟩
  · simp only [Text.spanAt]
    rw [List.take_left, hstop, ← List.append_assoc, List.take_left, Text.byteWidth_append]

/-- Tags stand where they are placed. -/
theorem forall₂_stands {all cs : List Char} (before : List Char) (hall : all = before ++ cs) :
    List.Forall₂ (Stands all) (located (Text.byteWidth before) (tagMarks words cs))
      (placesFrom before.length (tagMarks words cs)) := by
  induction cs using tag_induction words generalizing before with
  | nil => exact .nil
  | char c cs hnone ih =>
    have hlater := ih (before ++ [c]) (by rw [hall]; simp)
    rw [Text.byteWidth_append, List.length_append] at hlater
    rw [tagMarks_char hnone, located, placesFrom]
    exact hlater
  | tag t rest htag ih =>
    have hlater := ih (before ++ t.spelling) (by rw [hall, List.append_assoc])
    rw [Text.byteWidth_append, List.length_append] at hlater
    rw [located_tag htag, placesFrom_tag htag]
    exact .cons (hall ▸ stands_append before t rest) hlater

theorem start_of_mem_placesFrom {index : Nat} {ms : List (Char × Option Tag)} {p : Placed}
    (h : p ∈ placesFrom index ms) : index ≤ p.start := by
  obtain ⟨i, c, -, hstart, -⟩ := mem_placesFrom.1 h
  rw [hstart]
  exact Nat.le_add_right _ _

/-- A tag ends before the next one starts. -/
theorem pairwise_placesFrom (index : Nat) (cs : List Char) :
    (placesFrom index (tagMarks words cs)).Pairwise fun a b => a.stop ≤ b.start := by
  induction cs using tag_induction words generalizing index with
  | nil => exact .nil
  | char c cs hnone ih =>
    rw [tagMarks_char hnone, placesFrom]
    exact ih _
  | tag t rest htag ih =>
    rw [placesFrom_tag htag]
    exact .cons (fun p hp => start_of_mem_placesFrom hp) (ih _)

/-- The tags of a text as they are marked, placed in characters. -/
def places (words : List (List Char)) (cs : List Char) : List Placed :=
  placesFrom 0 (tagMarks words cs)

/-- **The tags of a text can be placed**: they stand in it as they are located, one behind the
other. -/
theorem placed_tagMarks (words : List (List Char)) (cs : List Char) :
    place cs 0 0 (located 0 (tagMarks words cs)) = some (places words cs) ∧
      List.Forall₂ (Stands cs) (located 0 (tagMarks words cs)) (places words cs) ∧
      (places words cs).Pairwise fun a b => a.stop ≤ b.start :=
  ⟨place_located [] [] rfl, forall₂_stands [] rfl,
    pairwise_placesFrom 0 cs⟩

/-- A tag behind wide characters, which an escape hides, and one right behind a wide character. -/
example :
    let words := ["get".toList]
    let cs := "é\\$get[é✓$!GET".toList
    place cs 0 0 (located 0 (tagMarks words cs)) =
      some [⟨2, 6, ⟨false, false, none, "get"⟩⟩, ⟨9, 14, ⟨true, false, none, "GET"⟩⟩] := by
  decide +kernel

/-- A tag is placed exactly where it is marked. -/
theorem mem_places_iff {cs : List Char} {p : Placed} : p ∈ places words cs ↔
    ∃ c, (tagMarks words cs)[p.start]? = some (c, some p.tag) ∧ p.stop = p.start + p.tag.width := by
  rw [places, mem_placesFrom]
  constructor
  · rintro ⟨i, c, hmark, hstart, hstop⟩
    rw [Nat.zero_add] at hstart
    exact ⟨c, hstart ▸ hmark, hstop⟩
  · rintro ⟨c, hmark, hstop⟩
    exact ⟨p.start, c, hmark, (Nat.zero_add _).symm, hstop⟩

/-- A tag has characters, from a dollar sign on, and ends in the text. -/
theorem stop_of_mem_places {cs : List Char} {p : Placed} (hp : p ∈ places words cs) :
    cs[p.start]? = some '$' ∧ p.start < p.stop ∧ p.stop ≤ cs.length := by
  obtain ⟨c, hmark, hstop⟩ := mem_places_iff.1 hp
  obtain ⟨rest, hrest, -⟩ := tagAt_eq_append (rule_of_getElem?_marksFrom hmark)
  have hlength := congrArg List.length hrest
  have hpos := p.tag.width_pos
  have hdollar : cs[p.start]? = some '$' := by
    rw [← List.head?_drop, hrest]
    rfl
  rw [List.length_drop, List.length_append, ← width] at hlength
  exact ⟨hdollar, by omega, by omega⟩

/-- At one character there is one tag. -/
theorem eq_of_start_eq {cs : List Char} {p q : Placed} (hp : p ∈ places words cs)
    (hq : q ∈ places words cs) (h : p.start = q.start) : p = q := by
  obtain ⟨c, hmark, hstop⟩ := mem_places_iff.1 hp
  obtain ⟨d, hmark', hstop'⟩ := mem_places_iff.1 hq
  obtain ⟨start, stop, tag⟩ := p
  obtain ⟨start', stop', tag'⟩ := q
  obtain rfl : start = start' := h
  cases hmark.symm.trans hmark'
  cases hstop.trans hstop'.symm
  rfl

/-- A tag starts before the next one. -/
theorem pairwise_places (words : List (List Char)) (cs : List Char) :
    (places words cs).Pairwise fun a b => a.start < b.start :=
  (pairwise_placesFrom 0 cs).imp_of_mem fun ha _ hle =>
    Nat.lt_of_lt_of_le (stop_of_mem_places ha).2.1 hle

end TagTemplate.Tag
