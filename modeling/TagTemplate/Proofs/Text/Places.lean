import TagTemplate.Text.Location

/-! Lines and columns.

The place of a character is found by going through the text up to it. `locate_eq` says what
comes out: a line for each line break before the character, and as a column the characters
behind the last of them. A place is passed only once, so no other character has it
(`locate_inj`). -/
namespace TagTemplate.Text

/-- The line of the character at an index: one, and one more for each line break before it. -/
def lineAt (cs : List Char) (index : Nat) : Nat := 1 + (cs.take index).count '\n'

/-- The column of the character at an index: the number of characters between it and the last
line break before it, or the start. -/
def columnAt (cs : List Char) (index : Nat) : Nat :=
  ((cs.take index).reverse.takeWhile (· != '\n')).length

theorem locate_eq (cs : List Char) (index : Nat) :
    locate cs index = ⟨lineAt cs index, columnAt cs index⟩ := by
  rw [locate, lineAt, columnAt]
  generalize hbefore : (cs.take index).reverse = before
  rw [← List.reverse_reverse (cs.take index), hbefore]
  clear hbefore
  induction before with
  | nil => rfl
  | cons c before ih =>
    rw [List.reverse_cons, List.foldl_append, List.foldl_cons, List.foldl_nil, ih, Location.after,
      List.count_append, List.takeWhile_cons]
    by_cases hc : c = '\n'
    · subst hc
      rfl
    · simp [hc]

/-- Whether a place comes before another in a text. -/
def Location.Before (a b : Location) : Prop :=
  a.line < b.line ∨ a.line = b.line ∧ a.column < b.column

theorem Location.Before.trans {a b c : Location} (h : a.Before b) (h' : b.Before c) :
    a.Before c := by
  unfold Before at *
  omega

theorem Location.before_after (a : Location) (c : Char) : a.Before (a.after c) := by
  unfold after
  split
  · exact .inl (Nat.lt_succ_self _)
  · exact .inr ⟨rfl, Nat.lt_succ_self _⟩

theorem locate_succ {cs : List Char} {index : Nat} (h : index < cs.length) :
    locate cs (index + 1) = (locate cs index).after cs[index] := by
  rw [locate, List.take_succ_eq_append_getElem h, List.foldl_append, List.foldl_cons,
    List.foldl_nil, locate]

/-- Going on in a text, the places go on. -/
theorem before_locate {cs : List Char} {i j : Nat} (hlt : i < j) (hj : j ≤ cs.length) :
    (locate cs i).Before (locate cs j) := by
  induction hlt with
  | refl =>
    rw [locate_succ hj]
    exact (locate cs i).before_after _
  | step _ ih =>
    rw [locate_succ hj]
    exact (ih (Nat.le_of_lt hj)).trans (Location.before_after _ _)

/-- **No other character of a text has the same place.** -/
theorem locate_inj {cs : List Char} {i j : Nat} (hi : i ≤ cs.length) (hj : j ≤ cs.length)
    (h : locate cs i = locate cs j) : i = j := by
  have hnot (a : Location) : ¬ a.Before a := by
    unfold Location.Before
    omega
  rcases Nat.lt_trichotomy i j with hlt | heq | hlt
  · exact absurd (h ▸ before_locate hlt hj) (hnot _)
  · exact heq
  · exact absurd (h ▸ before_locate hlt hi) (hnot _)

end TagTemplate.Text
