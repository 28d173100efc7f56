import TagTemplate.Proofs.Program.Agreement
import TagTemplate.Proofs.Program.Spelling

/-! What is left of a source in the filled text.

A program that is filled has the literal text of its source as that is meant and values in the
place of its calls: `Program.exists_writtenAs`. So of the source everything stays but the
backslashes of its literal text, and what the calls take up: a stretch of characters that is
apart from all calls and has no backslash comes out as it went in, `Markup.isInfix_of_apart`. -/
namespace TagTemplate

/-! ### Filled texts -/

/-- Parts with values in their slots. -/
def Part.fill {ι : Type} : List Json → List (Part ι) → List Char
  | _, [] => []
  | values, .char c :: parts => c :: fill values parts
  | values, .slot _ :: parts =>
    ((values.head?.map Json.display).getD "").toList ++ fill values.tail parts

/-- Literal characters at the end stay. -/
theorem Part.fill_append_chars {ι : Type} (values : List Json) (parts : List (Part ι))
    (cs : List Char) : fill values (parts ++ cs.map .char) = fill values parts ++ cs := by
  induction parts generalizing values with
  | nil =>
    induction cs with
    | nil => rfl
    | cons c cs ih => exact congrArg (c :: ·) ih
  | cons part parts ih =>
    cases part with
    | char c => exact congrArg (c :: ·) (ih values)
    | slot i => rw [List.cons_append, fill, fill, ih, List.append_assoc]

/-- A template that was made of parts is filled as they are. -/
theorem Template.join_fill_parts {ι : Type} (values : List Json) (position : Nat)
    (parts : List (Part ι)) :
    String.join ((stretch (Part.split parts).1 ++ slotted position (Part.split parts).2).map
      (·.fill values)) = String.ofList (Part.fill (values.drop position) parts) := by
  rw [List.map_append, String.join_append, join_fill_stretch]
  induction parts generalizing position with
  | nil => rfl
  | cons part parts ih =>
    cases part with
    | char c =>
      rw [Part.split, Part.fill, String.ofList_cons, String.ofList_cons, String.append_assoc, ih]
    | slot i =>
      rw [Part.split, Part.fill, slotted, List.map_cons, List.map_append, String.join_cons,
        String.join_append, join_fill_stretch, ih, List.head?_drop, List.tail_drop,
        String.ofList_append, String.ofList_toList]
      exact String.empty_append

/-! ### Stretches apart from the calls -/

namespace Markup
variable {σ : Type}

/-- The text of some markup as it is filled, with what stands behind it. -/
def Item.filled (depth next : Nat) (values : List Json) (items : List (Item Glyph σ))
    (tail : List Char) : List Char :=
  Part.fill values (textParts asWritten depth next items) ++ tail

variable {depth next offset : Nat} {values : List Json} {items : List (Item Glyph σ)}
  {tail before stretch behind : List Char}

/-- Markup behind other markup is filled with what is left of the values. -/
theorem Item.exists_filled_cons (depth next : Nat) (values : List Json) (item : Item Glyph σ)
    (items : List (Item Glyph σ)) (tail : List Char) :
    ∃ first later, filled depth next values (item :: items) tail =
      first ++ filled depth (next + item.calls) later items tail := by
  cases item with
  | text g => exact ⟨[g.char], values, rfl⟩
  | call tag native args => exact ⟨_, values.tail, List.append_assoc _ _ _⟩

/-- A stretch at the beginning of a source is at the beginning of the text. -/
theorem isPrefix_of_apart
    (hsource : Item.textSpelling asWritten items ++ tail = stretch ++ behind)
    (hback : '\\' ∉ stretch)
    (hapart : ∀ call ∈ Item.callSpans asWritten offset items,
      (Text.spanAt offset stretch).Apart call) :
    stretch <+: Item.filled depth next values items tail := by
  induction items generalizing stretch offset next with
  | nil => exact ⟨behind, hsource.symm⟩
  | cons item items ih =>
    cases stretch with
    | nil => exact List.nil_prefix
    | cons c stretch =>
      match item with
      | .text ⟨true, d⟩ =>
        obtain ⟨hc, -⟩ := List.cons.inj hsource
        exact absurd (hc ▸ List.mem_cons_self) hback
      | .text ⟨false, d⟩ =>
        obtain ⟨hc, hrest⟩ := List.cons.inj hsource
        replace hc : d = c := hc
        subst hc
        have hcalls : ∀ call ∈ Item.callSpans asWritten (offset + d.utf8Size) items,
            (Text.spanAt (offset + d.utf8Size) stretch).Apart call := fun call hcall =>
          (hapart call (Item.mem_callSpans_cons hcall)).of_cons
        have hlater : stretch <+: Item.filled depth next values items tail :=
          ih hrest (fun h => hback (List.mem_cons_of_mem _ h)) hcalls
        exact List.cons_prefix_cons.2 ⟨rfl, hlater⟩
      | .call tag native args =>
        have hcall : Item.spelling asWritten (.call tag native args) ≠ [] := List.cons_ne_nil _ _
        exact absurd (hapart _ List.mem_cons_self)
          (Text.not_apart_of_append (a := []) hcall (List.cons_ne_nil c stretch))

/-- A stretch that begins with a character of a source is in the text, also when a backslash
stands before it. -/
theorem isInfix_of_apart_text {g : Glyph} {part : List Char}
    (hsource : Item.textSpelling asWritten (.text g :: items) ++ tail =
      before ++ (stretch ++ behind))
    (hglyph : asWritten.write g = before ++ part) (hpart : part ≠ []) (hback : '\\' ∉ stretch)
    (hapart : ∀ call ∈ Item.callSpans asWritten offset (.text g :: items),
      (Text.spanAt (offset + Text.byteWidth before) stretch).Apart call) :
    stretch <:+: Item.filled depth next values (.text g :: items) tail := by
  match g, before with
  | g, [] =>
    rw [List.nil_append] at hsource
    exact (isPrefix_of_apart hsource hback hapart).isInfix
  | ⟨false, d⟩, _ :: before =>
    obtain ⟨-, hnil⟩ := List.cons.inj hglyph
    exact absurd (List.append_eq_nil_iff.1 hnil.symm).2 hpart
  | ⟨true, d⟩, [b] =>
    -- The stretch begins behind the backslash, as if there were none.
    obtain ⟨hb, hrest⟩ := List.cons.inj hsource
    subst hb
    have hrest : Item.textSpelling asWritten (.text ⟨false, d⟩ :: items) ++ tail =
      stretch ++ behind := hrest
    have hcalls : ∀ call ∈ Item.callSpans asWritten (offset + '\\'.utf8Size)
        (.text ⟨false, d⟩ :: items),
        (Text.spanAt (offset + '\\'.utf8Size) stretch).Apart call := by
      intro call hcall
      rw [Item.callSpans, Nat.add_assoc] at hcall
      exact hapart call hcall
    have hbare : stretch <+: Item.filled depth next values (.text ⟨false, d⟩ :: items) tail :=
      isPrefix_of_apart hrest hback hcalls
    exact hbare.isInfix
  | ⟨true, d⟩, _ :: _ :: before =>
    obtain ⟨-, hglyph⟩ := List.cons.inj hglyph
    obtain ⟨-, hnil⟩ := List.cons.inj hglyph
    exact absurd (List.append_eq_nil_iff.1 hnil.symm).2 hpart

/-- **A stretch that is apart from all calls comes out as it went in**, if it has no backslash. -/
theorem isInfix_of_apart
    (hsource : Item.textSpelling asWritten items ++ tail = before ++ (stretch ++ behind))
    (hback : '\\' ∉ stretch)
    (hapart : ∀ call ∈ Item.callSpans asWritten offset items,
      (Text.spanAt (offset + Text.byteWidth before) stretch).Apart call) :
    stretch <:+: Item.filled depth next values items tail := by
  by_cases hne : stretch = []
  · exact hne ▸ List.nil_infix
  induction items generalizing before offset next values with
  | nil => exact ⟨before, behind, (List.append_assoc _ _ _).trans hsource.symm⟩
  | cons item items ih =>
    obtain ⟨first, later, hfilled⟩ := Item.exists_filled_cons depth next values item items tail
    have hlater {between : List Char} (hbefore : before = item.spelling asWritten ++ between)
        (hrest : Item.textSpelling asWritten items ++ tail = between ++ (stretch ++ behind)) :
        stretch <:+: Item.filled depth next values (item :: items) tail := by
      have hcalls : ∀ call ∈ Item.callSpans asWritten
          (offset + Text.byteWidth (item.spelling asWritten)) items,
          (Text.spanAt (offset + Text.byteWidth (item.spelling asWritten) +
            Text.byteWidth between) stretch).Apart call := by
        intro call hcall
        have h := hapart call (Item.mem_callSpans_cons hcall)
        rwa [hbefore, Text.byteWidth_append, ← Nat.add_assoc] at h
      rw [hfilled]
      exact (ih hrest hcalls).trans (List.suffix_append _ _).isInfix
    have hsplit := hsource
    rw [Item.textSpelling, List.append_assoc] at hsplit
    -- The stretch begins behind the first piece of markup, or in it.
    rcases List.append_eq_append_iff.1 hsplit with ⟨between, hbefore, hrest⟩ | ⟨part, hitem, hrest⟩
    · exact hlater hbefore hrest
    · rcases eq_or_ne part [] with rfl | hpart
      · rw [List.append_nil] at hitem
        exact hlater (hitem.symm.trans (List.append_nil _).symm) hrest.symm
      cases item with
      | text g => exact isInfix_of_apart_text hsource hitem hpart hback hapart
      | call tag native args =>
        have h := hapart _ List.mem_cons_self
        rw [hitem] at h
        exact absurd h (Text.not_apart_of_append hpart hne)

end Markup

namespace Program
open Markup
variable {σ : Type} {v : Vocabulary σ}

/-- Whether the source of a program is some markup, as far as that is read, and text behind it.
All its tags stand in calls of the markup. Filled, the program has the literal text of the markup
as that is meant and values in the place of its calls; the text behind it is taken as it stands. -/
structure WrittenAs (v : Vocabulary σ) (p : Program σ) (items : List (Item Glyph σ))
    (tail : List Char) : Prop where
  source : p.source.toList = Item.textSpelling asWritten items ++ tail
  written : Item.TextAll (Item.Written v) items
  tags : ∀ start t, .tag start t ∈ Token.scan v.words p.source.toList →
    ∃ call ∈ Item.callSpans asWritten 0 items,
      call.Has (Text.byteWidth (p.source.toList.take start))
  filled : ∀ values, (p.resolve values).toList = Item.filled p.depth 0 values items tail

/-- **The filled text of a program keeps the literal text of its source.** -/
theorem exists_writtenAs {source : String} {path : Option String} {depth : Nat} {p : Program σ}
    (h : compileAt v source path depth = .ok p) : ∃ items tail, p.WrittenAs v items tail := by
  obtain ⟨draft, hread, rfl⟩ := compileAt_eq_ok_iff.1 h
  obtain ⟨items, tail, hchars, hall, rfl, htags⟩ :=
    hread.spelled_tags (Token.backslashLast_ofChars _ 0 0 _) 0
  have hscan : (Token.scan v.words source.toList).flatMap Token.spelling = source.toList :=
    Token.flatMap_spelling_ofChars v.words 0 0 source.toList
  refine ⟨items, tail, hscan.symm.trans hchars, hall, fun start t ht => ?_, fun values => ?_⟩
  · obtain ⟨before, rest, hsplit⟩ := List.append_of_mem ht
    obtain ⟨call, hcall, hhas⟩ := htags before start t rest hsplit
    refine ⟨call, hcall, ?_⟩
    rwa [Nat.zero_add, ← Token.take_start_of_scan v.words hsplit] at hhas
  · rw [ofDraft_extend, resolve, Template.resolve]
    have hfill := Template.join_fill_parts values 0
      (Item.textParts asWritten depth 0 items ++ tail.map .char)
    rw [List.drop_zero, Part.fill_append_chars] at hfill
    exact (congrArg String.toList hfill).trans String.toList_ofList

/-- A stretch of the source that is apart from all calls and has no backslash is in the text,
whatever the values are. -/
theorem WrittenAs.isInfix {p : Program σ} {items : List (Item Glyph σ)}
    {tail before stretch behind : List Char} (h : p.WrittenAs v items tail)
    (hsource : p.source.toList = before ++ (stretch ++ behind)) (hback : '\\' ∉ stretch)
    (hapart : ∀ call ∈ Item.callSpans asWritten 0 items,
      (Text.spanAt (Text.byteWidth before) stretch).Apart call) (values : List Json) :
    stretch <:+: (p.resolve values).toList := by
  rw [h.filled]
  rw [← Nat.zero_add (Text.byteWidth before)] at hapart
  exact isInfix_of_apart (h.source.symm.trans hsource) hback hapart

end Program

end TagTemplate
