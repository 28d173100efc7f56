import Mathlib.Data.List.TakeWhile
import TagTemplate.Json.Printer
import TagTemplate.Json.Reader

/-! Numbers are written as numerals.

A numeral has an optional minus, a whole part in which no zero leads, an optional fraction and
an optional exponent: `WrittenNumeral`. The reader takes one off a text whole if nothing behind
it could belong to it (`WrittenNumeral.readNumeral_append`), and every number is written as one
(`JsonNumber.exists_written`): the digits of an integer begin with a zero only for zero itself,
and so do those of the shortest decimal of a double, since no grid has zero as its hit. -/
namespace TagTemplate

open Number

/-- Whether some characters are decimal digits, at least one. -/
structure Digits (cs : List Char) : Prop where
  ne_nil : cs ≠ []
  isDigit : ∀ c ∈ cs, c.isDigit = true

theorem Digits.cons {c : Char} {cs : List Char} (hc : c.isDigit = true)
    (hcs : ∀ c ∈ cs, c.isDigit = true) : Digits (c :: cs) :=
  ⟨List.cons_ne_nil _ _, List.forall_mem_cons.2 ⟨hc, hcs⟩⟩

/-- A numeral in the parts in which it is written. -/
structure WrittenNumeral where
  negative : Bool
  whole : List Char
  fraction : Option (List Char)
  /-- The sign and the digits of the exponent. -/
  exponent : Option (Char × List Char)
  whole_digits : Digits whole
  /-- A zero leads only where it stands alone. -/
  eq_zero_of_leads : whole.head? = some '0' → whole = ['0']
  fraction_digits : ∀ ds ∈ fraction, Digits ds
  exponent_sign : ∀ e ∈ exponent, e.1 = '+' ∨ e.1 = '-'
  exponent_digits : ∀ e ∈ exponent, Digits e.2

namespace WrittenNumeral

/-- The minus, if there is one. -/
def signText (negative : Bool) : List Char := if negative then ['-'] else []

def fractionText : Option (List Char) → List Char
  | none => []
  | some ds => '.' :: ds

def exponentText : Option (Char × List Char) → List Char
  | none => []
  | some (sign, ds) => 'e' :: sign :: ds

/-- A numeral as it is written. -/
def text (w : WrittenNumeral) : List Char :=
  signText w.negative ++ (w.whole ++ (fractionText w.fraction ++ exponentText w.exponent))

end WrittenNumeral

/-! ### Reading numerals -/

/-- Whether a text goes on with nothing that could belong to a numeral before it. -/
def EndsNumeral (rest : List Char) : Prop :=
  ∀ c ∈ rest.head?, c.isDigit = false ∧ c ≠ '.' ∧ c ≠ 'e' ∧ c ≠ 'E'

theorem takeDigits_append {ds rest : List Char} (hds : ∀ c ∈ ds, c.isDigit = true)
    (hrest : ∀ c ∈ rest.head?, c.isDigit = false) : takeDigits (ds ++ rest) = (ds, rest) := by
  rw [takeDigits, List.takeWhile_append_of_pos hds, List.dropWhile_append_of_pos hds]
  cases rest with
  | nil => simp
  | cons c rest => simp [hrest c rfl]

namespace Document

theorem readWhole_append {ds rest : List Char} (hds : Digits ds)
    (hzero : ds.head? = some '0' → ds = ['0']) (hrest : ∀ c ∈ rest.head?, c.isDigit = false) :
    readWhole (ds ++ rest) = some (ds, rest) := by
  rw [readWhole, takeDigits_append hds.isDigit hrest]
  split
  · rename_i heq
    cases heq
    exact absurd rfl hds.ne_nil
  · rename_i heq
    cases heq
    cases hzero rfl
  · rfl

theorem readFraction_append {fraction : Option (List Char)} {rest : List Char}
    (hds : ∀ ds ∈ fraction, Digits ds)
    (hrest : ∀ c ∈ rest.head?, c.isDigit = false ∧ c ≠ '.') :
    readFraction (WrittenNumeral.fractionText fraction ++ rest) = some (fraction, rest) := by
  cases fraction with
  | none =>
    rw [WrittenNumeral.fractionText, List.nil_append]
    unfold readFraction
    split
    · exact absurd rfl (hrest '.' rfl).2
    · rfl
  | some ds =>
    obtain ⟨hne, hdigits⟩ := hds ds rfl
    rw [WrittenNumeral.fractionText, List.cons_append, readFraction,
      takeDigits_append hdigits fun c hc => (hrest c hc).1]
    split
    · rename_i heq
      cases heq
      exact absurd rfl hne
    · rename_i heq
      cases heq
      rfl

theorem takeSign_of_sign {sign : Char} (h : sign = '+' ∨ sign = '-') (cs : List Char) :
    takeSign (sign :: cs) = (sign == '-', cs) := by
  rcases h with rfl | rfl
  · rfl
  · rfl

theorem readExponent_append {exponent : Option (Char × List Char)} {rest : List Char}
    (hsign : ∀ e ∈ exponent, e.1 = '+' ∨ e.1 = '-') (hds : ∀ e ∈ exponent, Digits e.2)
    (hrest : EndsNumeral rest) :
    ∃ e, readExponent (WrittenNumeral.exponentText exponent ++ rest) = some (e, rest) := by
  cases exponent with
  | none =>
    refine ⟨none, ?_⟩
    rw [WrittenNumeral.exponentText, List.nil_append]
    cases rest with
    | nil => rfl
    | cons c rest =>
      obtain ⟨-, -, he, hE⟩ := hrest c rfl
      rw [readExponent, if_neg (by simp [he, hE])]
  | some e =>
    obtain ⟨sign, ds⟩ := e
    obtain ⟨hne, hdigits⟩ : Digits ds := hds _ rfl
    obtain ⟨d, ds, rfl⟩ := List.exists_cons_of_ne_nil hne
    have htake := takeDigits_append hdigits fun c hc => (hrest c hc).1
    rw [List.cons_append] at htake
    simp only [WrittenNumeral.exponentText, List.cons_append, readExponent, beq_self_eq_true,
      Bool.true_or, if_true, takeSign_of_sign (hsign _ rfl), htake]
    exact ⟨_, rfl⟩

/-- A numeral is read part by part behind its sign. -/
theorem readNumeral_signText (negative : Bool) {cs : List Char} (h : cs.head? ≠ some '-') :
    readNumeral (WrittenNumeral.signText negative ++ cs) = do
      let (whole, cs) ← readWhole cs
      let (fraction, cs) ← readFraction cs
      let (exponent, cs) ← readExponent cs
      return (⟨negative, whole, fraction, exponent⟩, cs) := by
  cases negative with
  | true => rfl
  | false =>
    rw [WrittenNumeral.signText, if_neg Bool.false_ne_true, List.nil_append, readNumeral]
    rintro cs rfl
    exact h rfl

end Document

namespace WrittenNumeral

/-- A numeral begins with a minus or a digit. -/
theorem head_text (w : WrittenNumeral) :
    ∃ c cs, w.text = c :: cs ∧ (c = '-' ∨ c.isDigit = true) := by
  obtain ⟨hne, hdigits⟩ := w.whole_digits
  obtain ⟨c, cs, hwhole⟩ := List.exists_cons_of_ne_nil hne
  rw [text, hwhole]
  cases w.negative with
  | true => exact ⟨'-', _, rfl, .inl rfl⟩
  | false => exact ⟨c, _, rfl, .inr (hdigits c (hwhole ▸ List.mem_cons_self))⟩

/-- **The reader takes a numeral off a text whole.** -/
theorem readNumeral_append (w : WrittenNumeral) {rest : List Char} (hrest : EndsNumeral rest) :
    ∃ n, Document.readNumeral (w.text ++ rest) = some (n, rest) := by
  obtain ⟨e, hexponent⟩ := Document.readExponent_append w.exponent_sign w.exponent_digits hrest
  -- what stands behind the whole part is neither a digit nor, behind the fraction, a point
  have hbehindFraction (c : Char) (hc : c ∈ (exponentText w.exponent ++ rest).head?) :
      c.isDigit = false ∧ c ≠ '.' := by
    cases he : w.exponent with
    | none =>
      rw [he] at hc
      exact ⟨(hrest c hc).1, (hrest c hc).2.1⟩
    | some e =>
      rw [he] at hc
      cases hc
      exact ⟨rfl, by decide⟩
  have hbehindWhole (c : Char)
      (hc : c ∈ (fractionText w.fraction ++ (exponentText w.exponent ++ rest)).head?) :
      c.isDigit = false := by
    cases hf : w.fraction with
    | none =>
      rw [hf] at hc
      exact (hbehindFraction c hc).1
    | some ds =>
      rw [hf] at hc
      cases hc
      rfl
  have hfraction := Document.readFraction_append w.fraction_digits hbehindFraction
  have hwhole := Document.readWhole_append w.whole_digits w.eq_zero_of_leads hbehindWhole
  have hunsigned (rest : List Char) : (w.whole ++ rest).head? ≠ some '-' := by
    obtain ⟨c, cs, hcs⟩ := List.exists_cons_of_ne_nil w.whole_digits.ne_nil
    rw [hcs]
    rintro heq
    cases heq
    cases w.whole_digits.isDigit '-' (hcs ▸ List.mem_cons_self)
  refine ⟨⟨w.negative, w.whole, w.fraction, e⟩, ?_⟩
  rw [text, List.append_assoc, List.append_assoc, List.append_assoc,
    Document.readNumeral_signText _ (hunsigned _), hwhole]
  change (Document.readFraction _).bind _ = _
  rw [hfraction]
  change (Document.readExponent _).bind _ = _
  rw [hexponent]
  rfl

end WrittenNumeral

/-! ### Writing numbers -/

theorem digits_toDigits (n : Nat) : Digits (Nat.toDigits 10 n) where
  ne_nil := Nat.toDigits_ne_nil
  isDigit _ hc := Nat.isDigit_of_mem_toDigits (by decide) (by decide) hc

/-- The digits of a number begin with a zero only for zero itself. -/
theorem eq_zero_of_head_toDigits {n : Nat} (h : (Nat.toDigits 10 n).head? = some '0') : n = 0 := by
  induction n using Nat.strongRecOn with
  | ind n ih =>
    rw [Nat.toDigits_eq_if (by decide)] at h
    split at h
    · exact Nat.digitChar_eq_zero.1 (Option.some.inj h)
    · rename_i hlarge
      have htenth : n / 10 = 0 := by
        refine ih (n / 10) (by omega) ?_
        rwa [List.head?_append, List.head?_eq_some_head Nat.toDigits_ne_nil, Option.some_or,
          ← List.head?_eq_some_head] at h
      omega

/-- An integer as a numeral. -/
def WrittenNumeral.ofNat (negative : Bool) (n : Nat) : WrittenNumeral where
  negative := negative
  whole := Nat.toDigits 10 n
  fraction := none
  exponent := none
  whole_digits := digits_toDigits n
  eq_zero_of_leads h := by rw [eq_zero_of_head_toDigits h, Nat.toDigits_zero]
  fraction_digits := nofun
  exponent_sign := nofun
  exponent_digits := nofun

namespace Number

/-- Whether a decimal has digits, and a zero leads only for zero. -/
structure Decimal.Proper (d : Decimal) : Prop where
  digits : Digits d.digits
  eq_zero_of_leads : d.digits.head? = some '0' → d = ⟨['0'], 0⟩

/-- **A decimal is written as a numeral.** -/
theorem Decimal.Proper.exists_written {d : Decimal} (h : d.Proper) (negative : Bool) :
    ∃ w : WrittenNumeral,
      WrittenNumeral.signText negative ++ d.render .json = w.text := by
  obtain ⟨digits, e⟩ := d
  obtain ⟨⟨hne, hdigits⟩, hzero⟩ := h
  obtain ⟨c, cs, rfl⟩ := List.exists_cons_of_ne_nil hne
  obtain ⟨hc, hcs⟩ := List.forall_mem_cons.1 hdigits
  have hleads (h : c = '0') : cs = [] ∧ e = 0 := by
    have heq := hzero (congrArg some h)
    cases heq
    exact ⟨rfl, rfl⟩
  have hzeros (k : Nat) : ∀ c ∈ List.replicate k '0', c.isDigit = true := by
    intro c hc
    rw [List.eq_of_mem_replicate hc]
    rfl
  unfold Decimal.render
  dsimp only
  split
  · split
    · -- all digits stand behind the point
      have fraction : Digits (List.replicate (-e - 1).toNat '0' ++ c :: cs) :=
        ⟨by simp, List.forall_mem_append.2 ⟨hzeros _, hdigits⟩⟩
      refine ⟨⟨negative, ['0'], some (List.replicate (-e - 1).toNat '0' ++ c :: cs), none,
        .cons rfl nofun, fun _ => rfl, ?_, nofun, nofun⟩, ?_⟩
      · rintro _ ⟨⟩
        exact fraction
      · simp [WrittenNumeral.text, WrittenNumeral.fractionText, WrittenNumeral.exponentText]
    · -- the point stands among the digits or behind them
      have fraction : Digits (if (cs.drop e.toNat).isEmpty then ['0'] else cs.drop e.toNat) := by
        split
        · exact .cons rfl nofun
        · rename_i hsome
          exact ⟨by simpa using hsome, fun c hc => hcs c (List.mem_of_mem_drop hc)⟩
      refine ⟨⟨negative, c :: (cs.take e.toNat ++ List.replicate (e.toNat - cs.length) '0'),
        some (if (cs.drop e.toNat).isEmpty then ['0'] else cs.drop e.toNat), none,
        .cons hc ?_, ?_, ?_, nofun, nofun⟩, ?_⟩
      · exact List.forall_mem_append.2 ⟨fun c hc => hcs c (List.mem_of_mem_take hc), hzeros _⟩
      · intro h
        obtain ⟨rfl, rfl⟩ := hleads (Option.some.inj h)
        cases h
        rfl
      · rintro _ ⟨⟩
        exact fraction
      · simp [WrittenNumeral.text, WrittenNumeral.fractionText, WrittenNumeral.exponentText]
  · -- one digit stands before the point
    rename_i houtside
    refine ⟨⟨negative, [c], if cs.isEmpty then none else some cs,
      some (if e < 0 then '-' else '+', Nat.toDigits 10 e.natAbs), .cons hc nofun, ?_, ?_, ?_, ?_⟩,
      ?_⟩
    · intro h
      obtain ⟨-, rfl⟩ := hleads (Option.some.inj h)
      exact absurd (by decide) houtside
    · intro ds hds
      split at hds
      · cases hds
      · rename_i hsome
        cases hds
        exact ⟨by simpa using hsome, hcs⟩
    · rintro _ ⟨⟩
      dsimp only
      split
      · exact .inr rfl
      · exact .inl rfl
    · rintro _ ⟨⟩
      exact digits_toDigits _
    · cases cs with
      | nil => simp [WrittenNumeral.text, WrittenNumeral.fractionText, WrittenNumeral.exponentText]
      | cons d cs =>
        simp [WrittenNumeral.text, WrittenNumeral.fractionText, WrittenNumeral.exponentText]

namespace Binary64

/-- Zero does not round to another double. -/
theorem readsBack_zero {x : Binary64} (hx : x.isZero = false) (k : Int) :
    x.readsBack 0 k = false := by
  have hmantissa : 0 < x.mantissa := Nat.pos_of_ne_zero (by simpa [isZero] using hx)
  have hunit : 0 < scaleUp x.exponent := Nat.pow_pos (by decide)
  have hscale : 0 < Nat.pow 10 (-k).toNat := Nat.pow_pos (by decide)
  have hbelow : x.reach.1 ≤ 2 * scaleUp x.exponent := by
    unfold reach
    dsimp only
    split <;> omega
  have hnum : scaleUp x.exponent ≤ x.ratio.1 := Nat.le_mul_of_pos_left _ hmantissa
  have hlow : 0 < (4 * x.ratio.1 - x.reach.1) * Nat.pow 10 (-k).toNat :=
    Nat.mul_pos (by omega) hscale
  unfold readsBack
  simp only [Nat.mul_zero, Nat.zero_mul]
  split
  · rw [decide_eq_false (Nat.not_le.2 hlow), Bool.false_and]
  · rw [decide_eq_false (Nat.not_lt_zero _), Bool.false_and]

theorem readsBack_of_nearestOnGrid {x : Binary64} {k : Int} {n : Nat}
    (h : x.nearestOnGrid k = some n) : x.readsBack n k = true := by
  unfold nearestOnGrid at h
  dsimp only at h
  split at h
  · rename_i hboth
    obtain ⟨hlow, hhigh⟩ := Bool.and_eq_true_iff.1 hboth
    split at h
    · cases h
      exact hlow
    · cases h
      exact hhigh
  · split at h
    · rename_i hlow
      cases h
      exact hlow
    · split at h
      · rename_i hhigh
        cases h
        exact hhigh
      · cases h

/-- The zeros at the end of a number can be left out without leaving it out. -/
theorem proper_decimalOf {n : Nat} (hn : n ≠ 0) (k : Int) : (decimalOf n k).Proper := by
  obtain ⟨hne, hdigits⟩ := digits_toDigits n
  have hfirst : (Nat.toDigits 10 n).head? ≠ some '0' := fun h => hn (eq_zero_of_head_toDigits h)
  unfold decimalOf
  dsimp only
  generalize hkept : ((Nat.toDigits 10 n).reverse.dropWhile (· == '0')).reverse = kept
  have hprefix : kept <+: Nat.toDigits 10 n := by
    rw [← hkept, ← List.reverse_suffix, List.reverse_reverse]
    exact List.dropWhile_suffix _
  cases kept with
  | nil =>
    have hall := List.dropWhile_eq_nil_iff.1 (List.reverse_eq_nil_iff.1 hkept)
    have hzero := hall _ (List.mem_reverse.2 (List.head_mem hne))
    exact absurd (by rw [List.head?_eq_some_head hne, eq_of_beq hzero]) hfirst
  | cons c cs =>
    obtain ⟨rest, hrest⟩ := hprefix
    rw [← hrest] at hdigits hfirst
    exact ⟨⟨nofun, fun d hd => hdigits d (List.mem_append_left _ hd)⟩, fun h => absurd h hfirst⟩

theorem proper_shortest {x : Binary64} (hx : x.isZero = false) : x.shortest.Proper := by
  unfold shortest
  dsimp only
  split
  · rename_i d hfound
    obtain ⟨k, -, hk⟩ := List.exists_of_findSome?_eq_some hfound
    obtain ⟨n, hn, rfl⟩ := Option.map_eq_some_iff.1 hk
    refine proper_decimalOf ?_ k
    rintro rfl
    have hreads := readsBack_of_nearestOnGrid hn
    rw [readsBack_zero hx] at hreads
    cases hreads
  · exact ⟨⟨nofun, by simp⟩, fun _ => rfl⟩

end Binary64

end Number

/-- **Every number is written as a numeral.** -/
theorem JsonNumber.exists_written (n : JsonNumber) : ∃ w : WrittenNumeral, n.render = w.text := by
  cases n with
  | integer n =>
    have hwritten (negative : Bool) (n : Nat) : WrittenNumeral.signText negative ++ n.repr.toList =
        (WrittenNumeral.ofNat negative n).text := by
      rw [Nat.repr_eq_ofList_toDigits, String.toList_ofList, WrittenNumeral.text,
        WrittenNumeral.ofNat, WrittenNumeral.fractionText, WrittenNumeral.exponentText,
        List.append_nil, List.append_nil]
    cases n with
    | ofNat n => exact ⟨.ofNat false n, hwritten false n⟩
    | negSucc n =>
      refine ⟨.ofNat true (n + 1), ?_⟩
      rw [← hwritten]
      exact String.toList_append
  | real x =>
    rw [render, Binary64.render]
    cases hx : x.isZero with
    | true => 
      have hproper : Decimal.Proper ⟨['0'], 0⟩ := ⟨⟨nofun, by simp⟩, fun _ => rfl⟩
      exact hproper.exists_written x.negative
    | false => exact (Binary64.proper_shortest hx).exists_written x.negative

end TagTemplate
