import TagTemplate.Text.Location

/-! Spans of bytes.

The spans that the characters of a text take follow one another, so the bytes of a stretch
tell what it overlaps: a stretch is apart from another only if it does not begin in it. Where a
text can be cut at a span, that is between characters, the piece is the one whose bytes the span
counts (`cut_eq_some_iff`). -/
namespace TagTemplate.Text

/-- Whether a byte is in a span. -/
def Span.Has (s : Span) (byte : Nat) : Prop := s.start ≤ byte ∧ byte < s.stop

/-- Whether of two spans one ends where the other begins, or before. -/
def Span.Apart (s t : Span) : Prop := s.stop ≤ t.start ∨ t.stop ≤ s.start

/-- The bytes that some characters take from an offset on. -/
def spanAt (offset : Nat) (cs : List Char) : Span := ⟨offset, offset + byteWidth cs⟩

theorem byteWidth_cons (c : Char) (cs : List Char) :
    byteWidth (c :: cs) = c.utf8Size + byteWidth cs := rfl

theorem byteWidth_nil : byteWidth [] = 0 := rfl

theorem byteWidth_pos {cs : List Char} (h : cs ≠ []) : 0 < byteWidth cs := by
  obtain ⟨c, cs, rfl⟩ := List.exists_cons_of_ne_nil h
  rw [byteWidth_cons]
  exact Nat.add_pos_left c.utf8Size_pos _

theorem Span.within_iff {s t : Span} : s.within t = true ↔ t.start ≤ s.start ∧ s.stop ≤ t.stop := by
  rw [within, Bool.and_eq_true, decide_eq_true_iff, decide_eq_true_iff]

/-- Spans with a byte in common are not apart. -/
theorem Span.not_has_of_apart {s t : Span} {byte : Nat} (h : s.Apart t) (ht : t.Has byte) :
    ¬ s.Has byte := by
  rintro ⟨hstart, hstop⟩
  rcases h with h | h
  · exact absurd ht.1 (by omega)
  · exact absurd ht.2 (by omega)

/-- What is apart from some characters is apart from those behind the first. -/
theorem Span.Apart.of_cons {offset : Nat} {c : Char} {cs : List Char} {t : Span}
    (h : (spanAt offset (c :: cs)).Apart t) : (spanAt (offset + c.utf8Size) cs).Apart t := by
  simp only [Span.Apart, spanAt, byteWidth_cons] at h ⊢
  omega

/-- Characters begin in a stretch that they are the end of. -/
theorem spanAt_has_of_append {offset : Nat} {a b : List Char} (hb : b ≠ []) :
    (spanAt offset (a ++ b)).Has (offset + byteWidth a) := by
  have hb := byteWidth_pos hb
  simp only [Span.Has, spanAt, byteWidth_append]
  omega

/-- A stretch that begins in another one is not apart from it. -/
theorem not_apart_of_append {offset : Nat} {a b c : List Char} (hb : b ≠ []) (hc : c ≠ []) :
    ¬ (spanAt (offset + byteWidth a) c).Apart (spanAt offset (a ++ b)) := fun h =>
  Span.not_has_of_apart h (spanAt_has_of_append hb) (spanAt_has_of_append (a := []) hc)

/-! ### Cutting a text -/

/-- The bytes of a text are those of its characters. -/
theorem byteWidth_toList (s : String) : byteWidth s.toList = s.utf8ByteSize := by
  rw [← String.ofList_toList (s := s), String.toList_ofList]
  induction s.toList with
  | nil => rfl
  | cons c cs ih =>
    rw [byteWidth_cons, ih, String.ofList_cons, String.utf8ByteSize_append,
      String.utf8ByteSize_singleton]

/-- The characters that the first bytes of a text belong to, and the others; nothing if the bytes
end inside a character or behind the text. -/
def splitBytes : Nat → List Char → Option (List Char × List Char)
  | 0, cs => some ([], cs)
  | _ + 1, [] => none
  | bytes + 1, c :: cs =>
    if c.utf8Size ≤ bytes + 1 then
      (splitBytes (bytes + 1 - c.utf8Size) cs).map fun (front, back) => (c :: front, back)
    else none

/-- The piece of a text that a span counts the bytes of; nothing if an end of the span is not
between two characters of the text, or they are the wrong way round. -/
def cut (cs : List Char) (span : Span) : Option (List Char) :=
  if span.start ≤ span.stop then
    (splitBytes span.start cs).bind fun (_, back) =>
      (splitBytes (span.stop - span.start) back).map (·.1)
  else none

theorem byteWidth_eq_zero_iff {cs : List Char} : byteWidth cs = 0 ↔ cs = [] := by
  refine ⟨fun h => ?_, fun h => by rw [h]; rfl⟩
  refine Classical.byContradiction fun hne => ?_
  exact absurd h (Nat.ne_of_gt (byteWidth_pos hne))

/-- Of two beginnings of a text, the one with fewer bytes is the beginning of the other. -/
theorem eq_append_of_byteWidth_le {a b c d : List Char} (h : a ++ b = c ++ d)
    (hle : byteWidth a ≤ byteWidth c) : ∃ between, c = a ++ between ∧ b = between ++ d := by
  obtain ⟨between, hc, hb⟩ | ⟨between, ha, hd⟩ := List.append_eq_append_iff.1 h
  · exact ⟨between, hc, hb⟩
  · rw [ha, byteWidth_append] at hle
    obtain rfl : between = [] := byteWidth_eq_zero_iff.1 (by omega)
    exact ⟨[], by rw [ha, List.append_nil, List.append_nil], hd.symm⟩

theorem splitBytes_zero_iff {cs front back : List Char} :
    splitBytes 0 cs = some (front, back) ↔ cs = front ++ back ∧ byteWidth front = 0 := by
  have hzero : splitBytes 0 cs = some ([], cs) := by cases cs <;> rfl
  rw [hzero, byteWidth_eq_zero_iff]
  constructor
  · intro h
    cases h
    exact ⟨rfl, rfl⟩
  · rintro ⟨rfl, rfl⟩
    rfl

theorem splitBytes_eq_some_iff {bytes : Nat} {cs front back : List Char} :
    splitBytes bytes cs = some (front, back) ↔ cs = front ++ back ∧ byteWidth front = bytes := by
  induction cs generalizing bytes front with
  | nil =>
    cases bytes with
    | zero => exact splitBytes_zero_iff
    | succ bytes =>
      refine ⟨nofun, ?_⟩
      rintro ⟨hcs, hwidth⟩
      rw [(List.nil_eq_append_iff.1 hcs).1] at hwidth
      cases hwidth
  | cons c cs ih =>
    cases bytes with
    | zero => exact splitBytes_zero_iff
    | succ bytes =>
      rw [splitBytes]
      constructor
      · intro h
        split at h
        · rename_i hfits
          obtain ⟨⟨front', _⟩, hlater, heq⟩ := Option.map_eq_some_iff.1 h
          cases heq
          obtain ⟨rfl, hwidth⟩ := ih.1 hlater
          exact ⟨rfl, by rw [byteWidth_cons]; omega⟩
        · cases h
      · rintro ⟨hcs, hwidth⟩
        cases front with
        | nil => cases hwidth
        | cons d front =>
          obtain ⟨rfl, rfl⟩ := List.cons.inj hcs
          rw [byteWidth_cons] at hwidth
          have hrest : byteWidth front = bytes + 1 - c.utf8Size := by omega
          rw [if_pos (by omega), ih.2 ⟨rfl, hrest⟩]
          rfl

/-- **A text can be cut at the spans of its pieces**, and at no others. -/
theorem cut_eq_some_iff {cs piece : List Char} {span : Span} :
    cut cs span = some piece ↔
      ∃ before behind, cs = before ++ (piece ++ behind) ∧ span = spanAt (byteWidth before) piece := by
  obtain ⟨start, stop⟩ := span
  rw [cut]
  constructor
  · intro h
    split at h
    · rename_i hle
      obtain ⟨⟨before, back⟩, hbefore, h⟩ := Option.bind_eq_some_iff.1 h
      obtain ⟨⟨piece, behind⟩, hpiece, rfl⟩ := Option.map_eq_some_iff.1 h
      obtain ⟨rfl, hstart⟩ := splitBytes_eq_some_iff.1 hbefore
      obtain ⟨rfl, hstop⟩ := splitBytes_eq_some_iff.1 hpiece
      dsimp only at hle hstart hstop
      refine ⟨before, behind, rfl, ?_⟩
      simp only [spanAt, Span.mk.injEq]
      omega
    · cases h
  · rintro ⟨before, behind, rfl, hspan⟩
    cases hspan
    have hbefore : splitBytes (byteWidth before) (before ++ (piece ++ behind)) =
        some (before, piece ++ behind) := splitBytes_eq_some_iff.2 ⟨rfl, rfl⟩
    have hpiece : splitBytes (byteWidth before + byteWidth piece - byteWidth before)
        (piece ++ behind) = some (piece, behind) :=
      splitBytes_eq_some_iff.2 ⟨rfl, by omega⟩
    rw [if_pos (Nat.le_add_right _ _), hbefore, Option.bind_some]
    show (splitBytes _ (piece ++ behind)).map (·.1) = some piece
    rw [hpiece, Option.map_some]

end TagTemplate.Text
