import TagTemplate.Proofs.Program.Alike
import TagTemplate.Proofs.Tag.LetterCase

/-! Letter case in the names of tags.

A text in lower case is cut into the tokens of the text, in lower case. So two sources that differ
only in the case of ASCII letters, and only inside the names of tags for which an invocation is
begun, are cut into tokens that are alike, whatever the vocabulary. Both compile to the same
program, or fail with the same error: `Program.compileAt_recased`. -/
namespace TagTemplate

/-! ### Tokens in lower case -/

namespace Token

/-- A token with its ASCII letters in lower case. -/
def lowered : Token → Token
  | .tag start t => .tag start t.lowered
  | .escape hidden c => .escape hidden c.toLower
  | .char c => .char c.toLower

theorem ofMarks_lowered (skip pos : Nat) (ms : List (Char × Option Tag)) :
    ofMarks skip pos (ms.map fun mark => (mark.1.toLower, mark.2.map Tag.lowered)) =
      (ofMarks skip pos ms).map lowered := by
  fun_induction ofMarks skip pos ms with
  | case1 => simp
  | case2 skip pos mark rest ih => exact ih
  | case3 pos c tag rest ih =>
    rw [List.map_cons, Option.map_some, ofMarks, Tag.width_lowered, ih]
    rfl
  | case4 pos c mark rest ih =>
    calc
      _ = .escape (mark.map Tag.lowered).isSome c.toLower :: ofMarks 1 (pos + 1)
          (((c, mark) :: rest).map fun mark => (mark.1.toLower, mark.2.map Tag.lowered)) := rfl
      _ = _ := by
        rw [ih, Option.isSome_map]
        rfl
  | case5 pos c rest hne ih =>
    rw [List.map_cons, Option.map_none, ofMarks, ih]
    · rfl
    · intro d mark rest' heq hc
      obtain ⟨⟨d', mark'⟩, later, rfl, -, -⟩ := List.map_eq_cons_iff.1 heq
      exact hne d' mark' later rfl ((Text.toLower_eq_iff rfl).1 hc)

/-- **A text in lower case is cut into the tokens of the text**, in lower case. -/
theorem scan_map_toLower (words : List (List Char)) (cs : List Char) :
    scan words (cs.map Char.toLower) = (scan words cs).map lowered := by
  rw [scan, Tag.tagMarks, Tag.marks, Tag.marksFrom_map Tag.tagAt_map_toLower Tag.width_lowered,
    ofMarks_lowered]
  rfl

end Token

/-! ### Sources in other letter case -/

namespace Tag

theorem spellCount_inj {count count' : Option String} (h : spellCount count = spellCount count') :
    count = count' := by
  cases count <;> cases count' <;> simp_all [spellCount, String.toList_inj]

/-- Tags are alike if they have the same marks, and names that differ only in letter case. -/
theorem alike_of_lowered {t t' : Tag} (hmarks : t.marksSpelling = t'.marksSpelling)
    (hlower : t.lowered = t'.lowered) : t.Alike t' := by
  obtain ⟨negated, silent, count, name⟩ := t
  obtain ⟨negated', silent', count', name'⟩ := t'
  simp only [lowered, Tag.mk.injEq] at hlower
  obtain ⟨rfl, rfl, -, hname⟩ := hlower
  have hcount : spellCount count = spellCount count' := by
    simpa [marksSpelling] using hmarks
  exact ⟨rfl, rfl, spellCount_inj hcount, normalise_congr hname⟩

end Tag

namespace Token

/-- Whether a place of the text of some tokens lies in the name of a tag among them. -/
def InName (ts : List Token) (place : Nat) : Prop :=
  ∃ before start tag after, ts = before ++ .tag start tag :: after ∧
    (before.flatMap spelling).length + tag.width ≤ place + tag.name.length ∧
    place < (before.flatMap spelling).length + tag.width

theorem spelling_lowered (t : Token) : t.lowered.spelling = t.spelling.map Char.toLower := by
  cases t with
  | tag start t => exact Tag.spelling_lowered t
  | escape hidden c => rfl
  | char c => rfl

theorem length_spelling_of_lowered {t t' : Token} (h : t.lowered = t'.lowered) :
    t.spelling.length = t'.spelling.length := by
  have hlength := congrArg (fun t => t.spelling.length) h
  simpa [spelling_lowered] using hlength

/-- A token that is no tag is known by its spelling and by what it is in lower case. -/
theorem eq_of_lowered {t t' : Token} (plain : t.tag? = none) (h : t.lowered = t'.lowered)
    (hspelling : t.spelling = t'.spelling) : t = t' := by
  cases t with
  | tag => cases plain
  | escape hidden c =>
    cases t' with
    | escape hidden' c' =>
      cases hspelling
      cases h
      rfl
    | _ => cases h
  | char c =>
    cases t' with
    | char c' =>
      cases hspelling
      rfl
    | _ => cases h

/-- A place in the first token lies in a name only if that token is a tag, and then in its name. -/
theorem InName.first {t : Token} {ts : List Token} {place : Nat} (h : InName (t :: ts) place)
    (hplace : place < t.spelling.length) :
    ∃ start tag, t = .tag start tag ∧ tag.marksSpelling.length ≤ place := by
  obtain ⟨before, start, tag, after, heq, hlow, -⟩ := h
  have hwidth : tag.width = tag.marksSpelling.length + tag.name.length := by
    rw [Tag.width, Tag.spelling_eq, List.length_append, String.length_toList]
  cases before with
  | nil =>
    cases heq
    rw [List.flatMap_nil, List.length_nil] at hlow
    exact ⟨start, tag, rfl, by omega⟩
  | cons first before =>
    cases heq
    rw [List.flatMap_cons, List.length_append] at hlow
    omega

/-- A place behind the first token lies in a name of the others. -/
theorem InName.tail {t : Token} {ts : List Token} {place : Nat}
    (h : InName (t :: ts) (t.spelling.length + place)) : InName ts place := by
  obtain ⟨before, start, tag, after, heq, hlow, hhigh⟩ := h
  cases before with
  | nil =>
    cases heq
    rw [List.flatMap_nil, List.length_nil] at hhigh
    exact absurd hhigh (by rw [Tag.width, spelling]; omega)
  | cons first before =>
    cases heq
    rw [List.flatMap_cons, List.length_append] at hlow hhigh
    exact ⟨before, start, tag, after, rfl, by omega, by omega⟩

/-- Texts of one length are the same up to a place if no place before it tells them apart. -/
theorem take_eq_take {cs cs' : List Char} {size : Nat}
    (h : ∀ place < size, cs[place]? = cs'[place]?) : cs.take size = cs'.take size := by
  refine List.ext_getElem? fun place => ?_
  rw [List.getElem?_take, List.getElem?_take]
  split
  · exact h place ‹_›
  · rfl

/-- A token is alike to one that is the same in lower case and, outside a name, is written the
same. -/
theorem alike_of_lowered {t t' : Token} (hlower : t.lowered = t'.lowered)
    (hnames : ∀ place < t.spelling.length, t.spelling[place]? ≠ t'.spelling[place]? →
      ∃ start tag, t = .tag start tag ∧ tag.marksSpelling.length ≤ place) : t.Alike t' := by
  have hlength := length_spelling_of_lowered hlower
  cases plain : t.tag? with
  | none =>
    have hspelling : t.spelling.take t.spelling.length = t'.spelling.take t.spelling.length := by
      refine take_eq_take fun place hplace => Classical.byContradiction fun hne => ?_
      obtain ⟨start, tag, rfl, -⟩ := hnames place hplace hne
      cases plain
    rw [List.take_length, hlength, List.take_length] at hspelling
    rw [eq_of_lowered plain hlower hspelling]
    exact .same t'
  | some found =>
    match t, t' with
    | .tag start u, .tag start' u' =>
      obtain ⟨rfl, htag⟩ := Token.tag.inj hlower
      have hname : u.name.toList.length = u'.name.toList.length := by
        have hlower := congrArg (fun t : Tag => t.name.toList.length) htag
        simpa [Tag.lowered, Text.lowerAscii] using hlower
      have hmarks : u.spelling.take u.marksSpelling.length =
          u'.spelling.take u.marksSpelling.length := by
        refine take_eq_take fun place hplace => Classical.byContradiction fun hne => ?_
        have hin : place < u.spelling.length := by
          rw [Tag.spelling_eq, List.length_append]
          omega
        obtain ⟨_, _, heq, hbehind⟩ := hnames place hin hne
        cases heq
        omega
      have hsame : u.marksSpelling.length = u'.marksSpelling.length := by
        rw [spelling, spelling, Tag.spelling_eq, Tag.spelling_eq, List.length_append,
          List.length_append] at hlength
        omega
      rw [Tag.spelling_eq, Tag.spelling_eq, List.take_left, hsame, List.take_left] at hmarks
      exact .tag (Tag.alike_of_lowered hmarks htag)

/-- Tokens are alike if they are the same in lower case, and are written the same outside the names
of tags. -/
theorem forall₂_alike {ts ts' : List Token} (hlower : ts.map lowered = ts'.map lowered)
    (hnames : ∀ place, (ts.flatMap spelling)[place]? ≠ (ts'.flatMap spelling)[place]? →
      InName ts place) : List.Forall₂ Token.Alike ts ts' := by
  induction ts generalizing ts' with
  | nil =>
    rw [List.map_eq_nil_iff.1 hlower.symm]
    exact .nil
  | cons t ts ih =>
    obtain ⟨t', ts', rfl, ht, hts⟩ := List.map_eq_cons_iff.1 hlower.symm
    have hlength := length_spelling_of_lowered ht
    rw [List.flatMap_cons, List.flatMap_cons] at hnames
    refine .cons (alike_of_lowered ht.symm fun place hplace hne => ?_) (ih hts.symm fun place hne => ?_)
    · refine (hnames place ?_).first hplace
      rwa [List.getElem?_append_left hplace, List.getElem?_append_left (hlength ▸ hplace)]
    · refine InName.tail (t := t) (hnames _ ?_)
      rwa [List.getElem?_append_right (Nat.le_add_right _ _), Nat.add_sub_cancel_left, ← hlength,
        List.getElem?_append_right (Nat.le_add_right _ _), Nat.add_sub_cancel_left]

end Token

/-! ### Compiling -/

theorem Text.locate_map_toLower (cs : List Char) (index : Nat) :
    locate (cs.map Char.toLower) index = locate cs index := by
  have hafter (place : Location) (c : Char) : place.after c.toLower = place.after c := by
    simp only [Location.after, beq_iff_eq, toLower_eq_iff (d := '\n') rfl]
  rw [locate, ← List.map_take, List.foldl_map, locate]
  simp only [hafter]

namespace Program
variable {σ : Type} {v : Vocabulary σ} {source source' : String}

/-- Whether two sources differ only in the case of ASCII letters, and only inside the names of tags
for which an invocation is begun in the first. -/
structure Recased (v : Vocabulary σ) (source source' : String) : Prop where
  letters : source.toList.map Char.toLower = source'.toList.map Char.toLower
  names : ∀ index, source.toList[index]? ≠ source'.toList[index]? → ∃ start tag,
    (Stage.first v source).Begins start tag ∧
      start + tag.width ≤ index + tag.name.length ∧ index < start + tag.width

/-- Sources that differ only in the letter case of names have alike tokens. -/
theorem Recased.alike (h : Recased v source source') :
    List.Forall₂ Token.Alike (Token.scan v.words source.toList)
      (Token.scan v.words source'.toList) := by
  have htext (source : String) :
      (Token.scan v.words source.toList).flatMap Token.spelling = source.toList :=
    Token.flatMap_spelling_ofChars v.words 0 0 source.toList
  refine Token.forall₂_alike ?_ fun place hne => ?_
  · rw [← Token.scan_map_toLower, ← Token.scan_map_toLower, h.letters]
  · rw [htext, htext] at hne
    obtain ⟨start, tag, begun, hlow, hhigh⟩ := h.names place hne
    obtain ⟨before, after, hscan⟩ := List.append_of_mem begun.mem_tokens
    have hstart := Token.start_eq_of_ofChars v.words 0 0 source.toList hscan
    rw [Nat.zero_add] at hstart
    exact ⟨before, start, tag, after, hscan, hstart ▸ hlow, hstart ▸ hhigh⟩

/-- **The letter case of tag names does not matter.** If two sources differ only in the case of
letters inside the names of tags for which invocations are begun, then both compile, to programs
that are the same up to the source, or both fail, with the same error. -/
theorem compileAt_recased (h : Recased v source source') (path : Option String) (depth : Nat) :
    compileAt v source' path depth =
      (compileAt v source path depth).map fun p => { p with source := source' } := by
  cases hcompile : compileAt v source path depth with
  | ok p =>
    obtain ⟨draft, hread, rfl⟩ := compileAt_eq_ok_iff.1 hcompile
    exact compileAt_eq_ok_iff.2 ⟨draft, hread.alike h.alike, rfl⟩
  | error e =>
    obtain ⟨p, hfails, rfl⟩ := compileAt_eq_error_iff.1 hcompile
    have hplace : Text.locate source'.toList p.start = Text.locate source.toList p.start := by
      rw [← Text.locate_map_toLower, ← h.letters, Text.locate_map_toLower]
    exact compileAt_eq_error_iff.2 ⟨p, hfails.alike ⟨.nil, h.alike⟩, by rw [hplace]⟩

/-- A call and an alias nested in its argument, both in other letter case. -/
theorem compileAt_recased_nested :
    Recased (.ofNatives (Builtin.all : List (Native Unit))) "$GeT[$getvar[x]]" "$gEt[$GETVAR[x]]" ∧
      compileAt (.ofNatives (Builtin.all : List (Native Unit))) "$gEt[$GETVAR[x]]" none 0 =
        (compileAt (.ofNatives Builtin.all) "$GeT[$getvar[x]]" none 0).map
          fun p => { p with source := "$gEt[$GETVAR[x]]" } := by
  let v : Vocabulary Unit := .ofNatives Builtin.all
  let outer : Tag := ⟨false, false, none, "GeT"⟩
  let inner : Tag := ⟨false, false, none, "getvar"⟩
  have hscan : Token.scan v.words "$GeT[$getvar[x]]".toList =
      [.tag 0 outer, .char '[', .tag 5 inner, .char '[', .char 'x', .char ']', .char ']'] := by
    decide
  have hfirst : Stage.first v "$GeT[$getvar[x]]" = ⟨[], _⟩ := congrArg (Stage.mk []) hscan
  have houter : (Stage.first v "$GeT[$getvar[x]]").Begins 0 outer := by
    rw [hfirst]
    exact ⟨[], _, .refl, Stage.takesText_nil⟩
  have hinner : (Stage.first v "$GeT[$getvar[x]]").Begins 5 inner := by
    have hget : (v.resolve outer.name).map (·.signature) =
        some (Builtin.getNative : Native Unit).signature := by decide
    obtain ⟨native, resolved, hsignature⟩ := Option.map_eq_some_iff.1 hget
    have declared : native.signature.args = some ⟨true, [{ name := "name" }]⟩ := by
      rw [hsignature]
      rfl
    rw [hfirst]
    exact ⟨_, _, .single (.opens Stage.takesText_nil resolved declared), Stage.takesText_cons rfl⟩
  have hwidths : (outer.width = 4 ∧ outer.name.length = 3) ∧
      inner.width = 7 ∧ inner.name.length = 6 := by decide
  have hplaces : ∀ index < 16,
      "$GeT[$getvar[x]]".toList[index]? ≠ "$gEt[$GETVAR[x]]".toList[index]? →
        1 ≤ index ∧ index < 4 ∨ 6 ≤ index ∧ index < 12 := by decide
  have hrecased : Recased v "$GeT[$getvar[x]]" "$gEt[$GETVAR[x]]" := by
    refine ⟨by decide, fun index hne => ?_⟩
    have hindex : index < 16 := by
      refine Classical.byContradiction fun hlarge => hne ?_
      rw [List.getElem?_eq_none (Nat.le_of_not_lt hlarge),
        List.getElem?_eq_none (Nat.le_of_not_lt hlarge)]
    rcases hplaces index hindex hne with hin | hin
    · exact ⟨0, outer, houter, by omega, by omega⟩
    · exact ⟨5, inner, hinner, by omega, by omega⟩
  exact ⟨hrecased, compileAt_recased hrecased none 0⟩

end Program

end TagTemplate
