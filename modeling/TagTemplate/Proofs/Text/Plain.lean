import TagTemplate.Text.Blank
import TagTemplate.Text.CaseFold

/-! Plain letters: the characters of which ordinary function names consist.

A plain letter is a lower-case ASCII letter, a digit or an underscore. Lower case leaves
it alone, and so does folding; and whatever lowers to a plain letter folds to the same
letter. So a name that lowers to a plain word also spells that word, in whatever letter
case it is written. -/
namespace TagTemplate.Text

/-- Whether a character is a lower-case ASCII letter, a digit or an underscore. -/
def isPlain (c : Char) : Bool := c.isLower || c.isDigit || c == '_'

/-! ### Single characters

ASCII is small enough to be gone through; beyond it the runs of capitals decide. -/

theorem ascii_of_forall {P : Char → Prop} (h : ∀ n < 128, P (Char.ofNat n)) {c : Char}
    (hc : c.toNat < 128) : P c := by
  have hn := h c.toNat hc
  rwa [Char.ofNat_toNat] at hn

theorem toNat_lt_of_isPlain {c : Char} (h : isPlain c = true) : c.toNat < 128 := by
  simp only [isPlain, Bool.or_eq_true, beq_iff_eq] at h
  rcases h with (h | h) | rfl
  · have hle : c.val ≤ 'z'.val := of_decide_eq_true (Bool.and_eq_true_iff.1 h).2
    exact Nat.lt_of_le_of_lt (UInt32.le_iff_toNat_le.1 hle) (by decide)
  · have hle : c.val ≤ '9'.val := of_decide_eq_true (Bool.and_eq_true_iff.1 h).2
    exact Nat.lt_of_le_of_lt (UInt32.le_iff_toNat_le.1 hle) (by decide)
  · decide

theorem lowerChar_of_ascii {c : Char} (h : c.toNat < 128) : lowerChar c = c.toLower := by
  rw [lowerChar, if_pos h]

theorem lowerChar_of_isPlain {c : Char} (h : isPlain c = true) : lowerChar c = c := by
  have hc := toNat_lt_of_isPlain h
  rw [lowerChar_of_ascii hc]
  have hall : ∀ n < 128, isPlain (Char.ofNat n) = true → (Char.ofNat n).toLower = Char.ofNat n := by
    decide
  exact ascii_of_forall (P := fun c => isPlain c = true → c.toLower = c) hall hc h

/-- What lowers into ASCII folds to its lower case. -/
theorem fold_of_lowerChar {c : Char} (h : isPlain (lowerChar c) = true) : fold c = lowerChar c := by
  rw [fold, if_pos (toNat_lt_of_isPlain h)]

theorem fold_of_isPlain {c : Char} (h : isPlain c = true) : fold c = c := by
  have hlower := lowerChar_of_isPlain h
  have hplain : isPlain (lowerChar c) = true := by rw [hlower, h]
  rw [fold_of_lowerChar hplain, hlower]

theorem toNat_ofNat_eq (n : Nat) : (Char.ofNat n).toNat = n ∨ (Char.ofNat n).toNat = 0 := by
  by_cases h : n.isValidChar
  · exact .inl (congrArg Char.toNat (dif_pos h))
  · exact .inr (congrArg Char.toNat (dif_neg h))

/-- Only the dollar sign is a dollar sign in lower case. -/
theorem eq_dollar_of_lowerChar {c : Char} (h : lowerChar c = '$') : c = '$' := by
  by_cases hc : c.toNat < 128
  · rw [lowerChar_of_ascii hc] at h
    have hall : ∀ n < 128, (Char.ofNat n).toLower = '$' → Char.ofNat n = '$' := by decide
    exact ascii_of_forall (P := fun c => c.toLower = '$' → c = '$') hall hc h
  · rw [lowerChar, if_neg hc] at h
    split at h
    · rename_i n hn
      obtain ⟨run, hrun, hshift⟩ := List.exists_of_findSome?_eq_some hn
      have hbound : ∀ run ∈ lowerRuns, 36 < run.first + run.offset := by decide +kernel
      have hrun := hbound run hrun
      have hn : 36 < n := by
        unfold CaseRun.shift? at hshift
        split at hshift
        · rename_i hin
          simp only [Bool.and_eq_true, decide_eq_true_eq] at hin
          cases hshift
          omega
        · cases hshift
      have hnat : (Char.ofNat n).toNat = 36 := congrArg Char.toNat h
      rcases toNat_ofNat_eq n with hn' | hn' <;> omega
    · exact h

/-- A character folds to its lower-case form, unless it is a capital without a pair or a
variant of another letter. -/
theorem fold_cases (c : Char) :
    fold c = lowerChar c ∨ (fold c = c ∧ 128 ≤ (lowerChar c).toNat) ∨
      ∃ n, ((lowerChar c).toNat, n) ∈ foldedVariants ∧ fold c = Char.ofNat n := by
  unfold fold
  dsimp only
  split
  · exact .inl rfl
  · rename_i hl
    split
    · exact .inr (.inl ⟨rfl, Nat.le_of_not_lt hl⟩)
    · split
      · rename_i n hn
        obtain ⟨before, after, heq, -⟩ := List.lookup_eq_some_iff.1 hn
        exact .inr (.inr ⟨n, heq ▸ List.mem_append_right _ List.mem_cons_self, rfl⟩)
      · exact .inl rfl

/-- Of the characters that fold to a plain letter, only the long s does not lower to it. -/
theorem lowerChar_of_fold {c : Char} (h : isPlain (fold c) = true) (hs : fold c ≠ 's') :
    lowerChar c = fold c := by
  rcases fold_cases c with heq | ⟨heq, hlarge⟩ | ⟨n, hn, heq⟩
  · exact heq.symm
  · rw [heq] at h
    have hsmall := toNat_lt_of_isPlain h
    rw [lowerChar_of_isPlain h] at hlarge
    omega
  · have hvariants : ∀ variant ∈ foldedVariants, isPlain (Char.ofNat variant.2) = true →
        Char.ofNat variant.2 = 's' := by decide
    rw [heq] at h hs
    exact absurd (hvariants _ hn h) hs

/-- The blank characters. -/
def blanks : List Nat :=
  [0x9, 0xA, 0xB, 0xC, 0xD, 0x20, 0x85, 0xA0, 0x1680, 0x2000, 0x2001, 0x2002, 0x2003, 0x2004, 0x2005,
    0x2006, 0x2007, 0x2008, 0x2009, 0x200A, 0x2028, 0x2029, 0x202F, 0x205F, 0x3000]

theorem toNat_mem_blanks {c : Char} (h : isBlank c = true) : c.toNat ∈ blanks := by
  simp only [isBlank, Bool.or_eq_true, Bool.and_eq_true, decide_eq_true_eq, beq_iff_eq] at h
  simp only [blanks, List.mem_cons, List.not_mem_nil, or_false]
  omega

/-- No blank lowers to a plain letter. -/
theorem isBlank_of_lowerChar {c : Char} (h : isPlain (lowerChar c) = true) : isBlank c = false := by
  have hblanks : ∀ n ∈ blanks, isPlain (lowerChar (Char.ofNat n)) = false := by decide +kernel
  cases hc : isBlank c with
  | false => rfl
  | true =>
    have hplain := hblanks c.toNat (toNat_mem_blanks hc)
    rw [Char.ofNat_toNat, h] at hplain
    cases hplain

/-- A character at which a plain word cannot go on. -/
def Bars (c : Char) : Prop := isPlain (fold c) = false

/-! ### Whole words -/

/-- A text that lowers to a plain word is as long as the word, and lowers to it character
by character. -/
theorem map_lowerChar_of_lowerAfter {before cs word : List Char}
    (h : lowerAfter before cs = word) (hw : ∀ c ∈ word, isPlain c = true ∨ c = '$') :
    cs.map lowerChar = word := by
  induction cs generalizing before word with
  | nil => exact h
  | cons c cs ih =>
    subst h
    simp only [lowerAfter, List.forall_mem_append] at hw
    obtain ⟨hhead, htail⟩ := hw
    have hc : c ≠ 'Σ' ∧ c ≠ 'İ' := by
      constructor
      · rintro rfl
        simp only [BEq.rfl, if_true, List.forall_mem_singleton] at hhead
        split at hhead <;> exact absurd hhead (by decide)
      · rintro rfl
        rw [if_neg (by decide), if_pos (by decide)] at hhead
        exact absurd (hhead (Char.ofNat 0x307) (by decide)) (by decide)
    simp only [lowerAfter, beq_iff_eq, hc.1, hc.2, if_false, List.map_cons, List.cons_append,
      List.nil_append, ih rfl htail]

theorem lowerAfter_of_plain {before cs : List Char}
    (h : ∀ c ∈ cs, isPlain (lowerChar c) = true) : lowerAfter before cs = cs.map lowerChar := by
  induction cs generalizing before with
  | nil => rfl
  | cons c cs ih =>
    obtain ⟨hc, hcs⟩ := List.forall_mem_cons.1 h
    have hsigma : c ≠ 'Σ' := by
      rintro rfl
      exact absurd hc (by decide +kernel)
    have hdotted : c ≠ 'İ' := by
      rintro rfl
      exact absurd hc (by decide +kernel)
    simp only [lowerAfter, beq_iff_eq, hsigma, hdotted, if_false, List.map_cons, List.cons_append,
      List.nil_append, ih hcs]

theorem dropWhile_isBlank {cs : List Char} (h : ∀ c ∈ cs, isBlank c = false) :
    cs.dropWhile isBlank = cs := by
  cases cs with
  | nil => rfl
  | cons c cs => rw [List.dropWhile_cons_of_neg (by simp [h c List.mem_cons_self])]

theorem trim_of_plain {s : String} (h : ∀ c ∈ s.toList, isPlain (lowerChar c) = true) :
    trim s = s := by
  have hblank : ∀ c ∈ s.toList, isBlank c = false := fun c hc => isBlank_of_lowerChar (h c hc)
  have hreverse : ∀ c ∈ s.toList.reverse, isBlank c = false :=
    fun c hc => hblank c (List.mem_reverse.1 hc)
  rw [trim, trimChars, trimStart, trimStart, dropWhile_isBlank hblank, dropWhile_isBlank hreverse,
    List.reverse_reverse, String.ofList_toList]

/-- Whether two words differ at most in the case of their letters. -/
def SameWord (a b : List Char) : Prop := a.map fold = b.map fold

/-- What spells a word differs from it at most in case. -/
theorem sameWord_of_spelledAs {word cs spelled : List Char}
    (h : spelledAs word cs = some spelled) : SameWord word spelled := by
  induction word generalizing cs spelled with
  | nil =>
    cases h
    rfl
  | cons w word ih =>
    cases cs with
    | nil => cases h
    | cons c cs =>
      rw [spelledAs] at h
      split at h
      · rename_i hsame
        obtain ⟨spelled, hs, rfl⟩ := Option.map_eq_some_iff.1 h
        have hw : fold w = fold c := eq_of_beq hsame
        rw [SameWord, List.map_cons, List.map_cons, hw, ih hs]
      · cases h

/-- What differs from a word at most in case spells it, whatever follows. -/
theorem SameWord.spelledAs {word cs : List Char} (h : SameWord word cs) (rest : List Char) :
    spelledAs word (cs ++ rest) = some cs := by
  induction word generalizing cs with
  | nil =>
    rw [List.map_eq_nil_iff.1 h.symm]
    rfl
  | cons w word ih =>
    cases cs with
    | nil => cases h
    | cons c cs =>
      obtain ⟨hc, hcs⟩ := List.cons.inj h
      have hsame : sameLetter w c = true := beq_iff_eq.2 hc
      rw [List.cons_append, Text.spelledAs, if_pos hsame, ih hcs]
      rfl

/-- A text that lowers to a plain word spells it. -/
theorem spelledAs_of_map_lowerChar {word cs : List Char} (hw : ∀ c ∈ word, isPlain c = true)
    (h : cs.map lowerChar = word) (rest : List Char) : spelledAs word (cs ++ rest) = some cs := by
  subst h
  refine SameWord.spelledAs ?_ rest
  rw [SameWord, List.map_map]
  refine List.map_congr_left fun c hc => ?_
  have hplain := hw _ (List.mem_map_of_mem hc)
  rw [Function.comp, fold_of_lowerChar hplain, fold_of_isPlain hplain]

/-- A word does not reach past a character that bars it. -/
theorem length_le_of_spelledAs {word cs rest spelled : List Char}
    (hw : ∀ c ∈ word, isPlain c = true) (hrest : ∀ c ∈ rest.head?, Bars c)
    (h : spelledAs word (cs ++ rest) = some spelled) : word.length ≤ cs.length := by
  induction cs generalizing word spelled with
  | nil =>
    cases word with
    | nil => exact Nat.le_refl _
    | cons w word =>
      cases rest with
      | nil => cases h
      | cons c rest =>
        rw [List.nil_append, spelledAs] at h
        split at h
        · rename_i hsame
          have hbar : isPlain (fold c) = false := hrest c rfl
          have hplain := hw w List.mem_cons_self
          have heq : fold w = fold c := eq_of_beq hsame
          rw [← heq, fold_of_isPlain hplain, hplain] at hbar
          cases hbar
        · cases h
  | cons c cs ih =>
    cases word with
    | nil => exact Nat.zero_le _
    | cons w word =>
      rw [List.cons_append, spelledAs] at h
      split at h
      · obtain ⟨spelled, hs, -⟩ := Option.map_eq_some_iff.1 h
        exact Nat.succ_le_succ (ih (List.forall_mem_cons.1 hw).2 hs)
      · cases h

end TagTemplate.Text
