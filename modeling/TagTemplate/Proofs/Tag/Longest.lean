import Mathlib.Data.List.Sort
import TagTemplate.Proofs.Tag.Positions
import TagTemplate.Proofs.Tag.Words

/-! The longest name is captured.

The words of a vocabulary stand in an order of their own, each once, so they depend only on the
names that are known and not on how the natives were given. A tag is marked with the word that is
written behind its marks, and no longer spelling of a known name could be read there:
`Vocabulary.longest_of_mem_tags`. -/
namespace TagTemplate

namespace Vocabulary
variable {σ : Type}

/-! ### The order of words -/

theorem precedes_iff {a b : List Char} : precedes a b = true ↔
    b.length < a.length ∨ a.length = b.length ∧ String.ofList a < String.ofList b := by
  simp [precedes]

theorem precedes_irrefl (a : List Char) : ¬precedes a a = true := by
  rw [precedes_iff]
  rintro (h | ⟨-, h⟩)
  · exact Nat.lt_irrefl _ h
  · exact String.lt_irrefl _ h

theorem precedes_trans {a b c : List Char} (hab : precedes a b = true)
    (hbc : precedes b c = true) : precedes a c = true := by
  rw [precedes_iff] at *
  rcases hab with hab | ⟨hab, hlt⟩ <;> rcases hbc with hbc | ⟨hbc, hlt'⟩
  · exact .inl (Nat.lt_trans hbc hab)
  · exact .inl (hbc ▸ hab)
  · exact .inl (hab ▸ hbc)
  · exact .inr ⟨hab.trans hbc, String.lt_trans hlt hlt'⟩

/-- Of two words one is tried before the other. -/
theorem precedes_total {a b : List Char} (hne : a ≠ b) (h : ¬precedes a b = true) :
    precedes b a = true := by
  rw [precedes_iff] at *
  rcases Nat.lt_trichotomy a.length b.length with hlt | heq | hlt
  · exact .inl hlt
  · have hle : ¬String.ofList a < String.ofList b := fun hlt => h (.inr ⟨heq, hlt⟩)
    have hne : String.ofList a ≠ String.ofList b := fun heq => hne (String.ofList_inj.1 heq)
    exact .inr ⟨heq.symm, by grind⟩
  · exact absurd (.inl hlt) h

/-- Whether words stand in the order in which they are tried, each once. -/
def Ordered (words : List (List Char)) : Prop := words.Pairwise fun a b => precedes a b = true

theorem ordered_insertWord {word : List Char} {words : List (List Char)} (h : Ordered words) :
    Ordered (insertWord word words) := by
  induction words with
  | nil => exact List.pairwise_singleton _ _
  | cons other words ih =>
    obtain ⟨hfirst, hrest⟩ := List.pairwise_cons.1 h
    rw [insertWord]
    split
    · exact h
    · rename_i hne
      split
      · rename_i hlt
        refine List.pairwise_cons.2 ⟨fun w hw => ?_, h⟩
        rcases List.mem_cons.1 hw with rfl | hw
        · exact hlt
        · exact precedes_trans hlt (hfirst w hw)
      · rename_i hnot
        refine List.pairwise_cons.2 ⟨fun w hw => ?_, ih hrest⟩
        rcases mem_insertWord.1 hw with rfl | hw
        · exact precedes_total (fun heq => hne (beq_iff_eq.2 heq)) hnot
        · exact hfirst w hw

theorem ordered_wordsOf (names : List String) : Ordered (wordsOf names) := by
  have hfold (new words : List (List Char)) (h : Ordered words) :
      Ordered (new.foldl
        (fun words word => if word.isEmpty then words else insertWord word words) words) := by
    induction new generalizing words with
    | nil => exact h
    | cons w new ih =>
      rw [List.foldl_cons]
      split
      · exact ih _ h
      · exact ih _ (ordered_insertWord h)
  exact hfold _ [] .nil

/-- Words in order are known by what they are. -/
theorem Ordered.eq_of_mem_iff {words words' : List (List Char)} (h : Ordered words)
    (h' : Ordered words') (hmem : ∀ word, word ∈ words ↔ word ∈ words') : words = words' := by
  have hirrefl : Std.Irrefl fun a b => precedes a b = true := ⟨precedes_irrefl⟩
  have hantisymm : Std.Antisymm fun a b => precedes a b = true :=
    ⟨fun a b hab hba => absurd (precedes_trans hab hba) (precedes_irrefl a)⟩
  exact List.Pairwise.eq_of_mem_iff h h' hmem

/-- The words of a vocabulary depend only on the names that are known. -/
theorem words_congr {natives natives' : List (Native σ)}
    (h : ∀ key, key ∈ knownNames natives ↔ key ∈ knownNames natives') :
    (ofNatives natives).words = (ofNatives natives').words := by
  refine Ordered.eq_of_mem_iff (ordered_wordsOf _) (ordered_wordsOf _) fun word => ?_
  simp only [mem_words_ofNatives, h]

/-- The order in which natives are given does not matter for the words. -/
theorem words_perm {natives natives' : List (Native σ)} (h : natives.Perm natives') :
    (ofNatives natives).words = (ofNatives natives').words :=
  words_congr fun _ => (h.flatMap_right _).mem_iff

end Vocabulary

/-! ### The longest spelling -/

namespace Vocabulary
variable {σ : Type} {natives : List (Native σ)} {text : String}

/-- Whether what is written at a place of a text is a name, and no longer spelling of a name is
written there. -/
structure LongestAt (names : List String) (word rest : List Char) : Prop where
  nonempty : word ≠ []
  known : ∃ name ∈ names, Text.SameWord (bareName name).toList word
  longest : ∀ name ∈ names, ∀ spelled, spelled <+: word ++ rest →
    Text.SameWord (bareName name).toList spelled → spelled.length ≤ word.length

/-- What is read as a word is the longest spelling of a known name. -/
theorem longestAt_of_wordAt {word : String} {rest : List Char}
    (h : Tag.wordAt (ofNatives natives).words (word.toList ++ rest) = some word) :
    LongestAt (knownNames natives) word.toList rest := by
  obtain ⟨spelled, hfirst, rfl⟩ := Option.map_eq_some_iff.1 h
  rw [String.toList_ofList] at hfirst ⊢
  obtain ⟨first, hmem, hspelled⟩ := List.exists_of_findSome?_eq_some hfirst
  have hsame := Text.sameWord_of_spelledAs hspelled
  obtain ⟨hne, name, hname, rfl⟩ := mem_words_ofNatives.1 hmem
  refine ⟨fun hnil => hne ?_, ⟨name, hname, hsame⟩, ?_⟩
  · rw [hnil] at hsame
    exact List.map_eq_nil_iff.1 hsame
  · rintro other hother longer ⟨behind, hbegins⟩ hlonger
    by_cases hempty : (bareName other).toList = []
    · rw [hempty] at hlonger
      rw [List.map_eq_nil_iff.1 hlonger.symm]
      exact Nat.zero_le _
    · have hword : (bareName other).toList ∈ (ofNatives natives).words :=
        mem_words_ofNatives.2 ⟨hempty, other, hother, rfl⟩
      have hread := hlonger.spelledAs behind
      rw [hbegins] at hread
      rw [Text.length_of_spelledAs hread]
      exact Tag.length_le_of_first (longestFirst_wordsOf _) hfirst hword hread

/-- **The longest known name is captured.** The name of a tag of a text is written where the tag's
marks end, it is a known name up to case, and no longer one is written there; and the tags of the
text are the same in whatever order the natives were registered. -/
theorem longest_of_mem_tags {tags : List (Text.Span × Tag)} {span : Text.Span} {tag : Tag}
    (h : (ofNatives natives).tags? text = some tags) (htag : (span, tag) ∈ tags) :
    (∃ before rest, text.toList = before ++ tag.name.toList ++ rest ∧
      Text.byteWidth before = span.stop - Text.byteWidth tag.name.toList ∧
      LongestAt (knownNames natives) tag.name.toList rest) ∧
    ∀ natives', natives'.Perm natives → (ofNatives natives').tags? text = some tags := by
  constructor
  · rw [tags?] at h
    split at h
    · cases h
    · cases h
      obtain ⟨index, c, hmark, hstart, hstop⟩ := Tag.exists_of_mem_located htag
      obtain ⟨rest, hrest, hword⟩ := Tag.tagAt_eq_append (Tag.rule_of_getElem?_marksFrom hmark)
      have htext : (Tag.tagMarks (ofNatives natives).words text.toList).map (·.1) = text.toList :=
        Tag.map_fst_marksFrom _ _ _ _
      refine ⟨text.toList.take index ++ tag.marksSpelling, rest, ?_, ?_,
        longestAt_of_wordAt hword⟩
      · rw [List.append_assoc (text.toList.take index), ← Tag.spelling_eq, List.append_assoc,
          ← hrest, List.take_append_drop]
      · rw [hstop, hstart, htext, Tag.spelling_eq, Text.byteWidth_append, Text.byteWidth_append]
        omega
  · intro natives' hperm
    rw [← h, tags?, tags?, words_perm hperm]

/-- With `$user` and `$username` known, the annotated tag in `a$!@[x]UserName` has the longer of
the two names, whichever was registered first. -/
theorem longest_of_mem_tags_prefix :
    let user : Native Unit := ⟨.named "$user" [], false, fun _ => .succeed .null⟩
    let username : Native Unit := ⟨.named "$username" [], false, fun _ => .succeed .null⟩
    let tags : List (Text.Span × Tag) := [(⟨1, 15⟩, ⟨true, false, some "x", "UserName"⟩)]
    (ofNatives [user, username]).tags? "a$!@[x]UserName" = some tags ∧
      (∃ before rest, "a$!@[x]UserName".toList = before ++ "UserName".toList ++ rest ∧
        Text.byteWidth before = 15 - 8 ∧
        LongestAt (knownNames [user, username]) "UserName".toList rest) ∧
      (ofNatives [username, user]).tags? "a$!@[x]UserName" = some tags := by
  intro user username tags
  have htags : (ofNatives [user, username]).tags? "a$!@[x]UserName" = some tags := by decide
  obtain ⟨hlongest, hperm⟩ := longest_of_mem_tags htags List.mem_cons_self
  exact ⟨htags, hlongest, hperm _ (List.Perm.swap _ _ _)⟩

end Vocabulary

end TagTemplate
