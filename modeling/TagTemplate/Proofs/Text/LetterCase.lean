import TagTemplate.Native.Signature
import TagTemplate.Proofs.Text.Plain

/-! Texts that differ only in the case of ASCII letters.

Lower-casing the ASCII letters of a text changes nothing that the recognition of names looks at:
not how a character folds, not whether it is blank, cased or transparent, and so neither the
normal form of a name (`normalise_lowerAscii`) nor whether a word is spelled
(`spelledAs_map_toLower`). -/
namespace TagTemplate

namespace Text

/-! ### Single characters -/

/-- A character is in lower case, or it is one of the 26 capitals. -/
theorem toLower_cases (c : Char) :
    c.toLower = c ∨ ∃ n < 26, c = Char.ofNat (65 + n) ∧ c.toLower = Char.ofNat (97 + n) := by
  by_cases hc : c.toNat < 128
  · refine ascii_of_forall (P := fun c => c.toLower = c ∨
      ∃ n < 26, c = Char.ofNat (65 + n) ∧ c.toLower = Char.ofNat (97 + n)) ?_ hc
    decide
  · have hz : ¬c.val ≤ 'Z'.val := fun hle =>
      hc (Nat.lt_of_le_of_lt (UInt32.le_iff_toNat_le.1 hle) (by decide))
    exact .inl (dif_neg fun hin => hz hin.2)

/-- What is the same for an ASCII letter in both cases is the same for all characters. -/
theorem of_toLower {α : Type} {f : Char → α}
    (h : ∀ n < 26, f (Char.ofNat (97 + n)) = f (Char.ofNat (65 + n))) (c : Char) :
    f c.toLower = f c := by
  rcases toLower_cases c with hc | ⟨n, hn, hc, hlower⟩
  · rw [hc]
  · rw [hlower, h n hn, ← hc]

theorem lowerChar_toLower (c : Char) : lowerChar c.toLower = lowerChar c :=
  of_toLower (by decide) c

theorem fold_toLower (c : Char) : fold c.toLower = fold c := of_toLower (by decide) c

theorem isBlank_toLower (c : Char) : isBlank c.toLower = isBlank c := of_toLower (by decide) c

theorem isCased_toLower (c : Char) : isCased c.toLower = isCased c :=
  of_toLower (by decide +kernel) c

/-- No letter is transparent: the ranges lie beside both alphabets. -/
theorem isTransparent_toLower (c : Char) : isTransparent c.toLower = isTransparent c := by
  have hranges : ∀ range ∈ transparentRanges,
      range.2 < 65 ∨ 90 < range.1 ∧ range.2 < 97 ∨ 122 < range.1 := by decide +kernel
  have hbeside {m : Nat} (hm : 65 ≤ m ∧ m ≤ 90 ∨ 97 ≤ m ∧ m ≤ 122) :
      inRanges transparentRanges m = false := by
    rw [inRanges, List.any_eq_false]
    intro range hrange hin
    have hapart := hranges range hrange
    simp only [Bool.and_eq_true, decide_eq_true_eq] at hin
    omega
  have hcode : ∀ n < 26, (Char.ofNat (65 + n)).toNat = 65 + n ∧
      (Char.ofNat (97 + n)).toNat = 97 + n := by decide
  refine of_toLower (fun n hn => ?_) c
  rw [isTransparent, isTransparent, (hcode n hn).1, (hcode n hn).2, hbeside (by omega),
    hbeside (by omega)]

/-- A character that is no letter is in lower case only where it is written. -/
theorem toLower_eq_iff {c d : Char} (hd : d.isAlpha = false) : c.toLower = d ↔ c = d := by
  have halpha : ∀ n < 26, (Char.ofNat (65 + n)).isAlpha = true ∧
      (Char.ofNat (97 + n)).isAlpha = true := by decide
  rcases toLower_cases c with hc | ⟨n, hn, hc, hlower⟩
  · rw [hc]
  · rw [hlower, hc]
    refine iff_of_false ?_ ?_ <;> rintro rfl
    · rw [(halpha n hn).2] at hd
      cases hd
    · rw [(halpha n hn).1] at hd
      cases hd

/-! ### Names -/

theorem dropWhile_map_toLower {p : Char → Bool} (hp : ∀ c, p c.toLower = p c) (cs : List Char) :
    (cs.map Char.toLower).dropWhile p = (cs.dropWhile p).map Char.toLower := by
  rw [List.dropWhile_map]
  congr 2
  exact funext hp

theorem trimChars_map_toLower (cs : List Char) :
    trimChars (cs.map Char.toLower) = (trimChars cs).map Char.toLower := by
  simp only [trimChars, trimStart, dropWhile_map_toLower isBlank_toLower, ← List.map_reverse]

theorem meetsLetter_map_toLower (cs : List Char) :
    meetsLetter (cs.map Char.toLower) = meetsLetter cs := by
  rw [meetsLetter, dropWhile_map_toLower isTransparent_toLower, meetsLetter]
  cases cs.dropWhile isTransparent with
  | nil => rfl
  | cons c cs => exact isCased_toLower c

theorem lowerAfter_map_toLower (before cs : List Char) :
    lowerAfter (before.map Char.toLower) (cs.map Char.toLower) = lowerAfter before cs := by
  induction cs generalizing before with
  | nil => rfl
  | cons c cs ih =>
    have hsigma : (c.toLower == 'Σ') = (c == 'Σ') := of_toLower (f := (· == 'Σ')) (by decide) c
    have hdotted : (c.toLower == 'İ') = (c == 'İ') := of_toLower (f := (· == 'İ')) (by decide) c
    have hrest := ih (c :: before)
    rw [List.map_cons] at hrest
    rw [List.map_cons, lowerAfter, lowerAfter, hsigma, hdotted, endsWord, endsWord,
      meetsLetter_map_toLower, meetsLetter_map_toLower, lowerChar_toLower, hrest]

end Text

/-- **The normal form of a name does not depend on the case of its ASCII letters.** -/
theorem normalise_lowerAscii (name : String) : normalise (Text.lowerAscii name) = normalise name := by
  have hlower : Text.lower (Text.trim (Text.lowerAscii name)) = Text.lower (Text.trim name) := by
    have hafter := Text.lowerAfter_map_toLower [] (Text.trimChars name.toList)
    simp only [Text.lower, Text.trim, Text.lowerAscii, String.toList_ofList,
      Text.trimChars_map_toLower]
    exact congrArg String.ofList hafter
  rw [normalise, hlower, normalise]

/-- Names that differ only in the case of ASCII letters have one normal form. -/
theorem normalise_congr {name name' : String} (h : Text.lowerAscii name = Text.lowerAscii name') :
    normalise name = normalise name' := by
  rw [← normalise_lowerAscii name, h, normalise_lowerAscii]

/-! ### Words -/

/-- A word is spelled in whatever case its ASCII letters are written. -/
theorem Text.spelledAs_map_toLower (word cs : List Char) :
    spelledAs word (cs.map Char.toLower) = (spelledAs word cs).map (List.map Char.toLower) := by
  induction word generalizing cs with
  | nil => rfl
  | cons w word ih =>
    cases cs with
    | nil => rfl
    | cons c cs =>
      rw [List.map_cons, spelledAs, spelledAs, sameLetter, fold_toLower, ih, sameLetter]
      split
      · rw [Option.map_map, Option.map_map]
        rfl
      · rfl

end TagTemplate
