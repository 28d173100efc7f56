import TagTemplate.Vocabulary
import TagTemplate.Proofs.Keyed
import TagTemplate.Proofs.Text.Plain

/-! The words of a vocabulary.

The words are those of the names that the vocabulary knows, and none is tried before a
longer one. For natives with plain names more is known: every word is plain, and a name
that resolves, in whatever letter case and with blanks around it, spells a word of the
vocabulary. -/
namespace TagTemplate

/-- Whether a normal name is a dollar sign and a plain word. -/
def PlainName (name : String) : Prop :=
  ∃ word : List Char, word ≠ [] ∧ (∀ c ∈ word, Text.isPlain c = true) ∧
    name = String.ofList ('$' :: word)

theorem plainName_iff {name : String} :
    PlainName name ↔ name.toList.head? = some '$' ∧ name.toList.tail ≠ [] ∧
      name.toList.tail.all Text.isPlain = true := by
  rw [List.all_eq_true]
  constructor
  · rintro ⟨word, hne, hplain, rfl⟩
    rw [String.toList_ofList]
    exact ⟨rfl, hne, hplain⟩
  · rintro ⟨hhead, hne, hplain⟩
    obtain ⟨word, hname⟩ := List.head?_eq_some_iff.1 hhead
    rw [hname] at hne hplain
    exact ⟨word, hne, hplain, by rw [← hname, String.ofList_toList]⟩

instance (name : String) : Decidable (PlainName name) := decidable_of_iff' _ plainName_iff

/-- A plain word does not begin with a dollar sign. -/
theorem dropWhile_dollar {cs : List Char}
    (h : ∀ c ∈ cs, Text.isPlain (Text.lowerChar c) = true) : cs.dropWhile (· == '$') = cs := by
  cases cs with
  | nil => rfl
  | cons c cs =>
    have hc : c ≠ '$' := by
      rintro rfl
      exact absurd (h _ List.mem_cons_self) (by decide)
    simp [hc]

theorem toList_bareName {word : List Char} (hw : ∀ c ∈ word, Text.isPlain c = true) :
    (bareName (String.ofList ('$' :: word))).toList = word := by
  have hlower : ∀ c ∈ word, Text.isPlain (Text.lowerChar c) = true := by
    intro c hc
    rw [Text.lowerChar_of_isPlain (hw c hc), hw c hc]
  rw [bareName, String.toList_ofList, String.toList_ofList, List.dropWhile_cons_of_pos (by decide),
    dropWhile_dollar hlower]

/-- A character that is not passed over is not lost. -/
theorem mem_dropWhile {α : Type} {p : α → Bool} {a : α} {as : List α} (h : a ∈ as)
    (ha : p a = false) : a ∈ as.dropWhile p := by
  rw [← List.takeWhile_append_dropWhile (p := p) (l := as)] at h
  refine (List.mem_append.1 h).resolve_left fun htake => ?_
  rw [List.all_eq_true.1 List.all_takeWhile a htake] at ha
  cases ha

/-- A character that is neither blank nor a dollar sign stays in the bare name. -/
theorem mem_bareName_trim {name : String} {c : Char} (h : c ∈ name.toList)
    (hblank : Text.isBlank c = false) (hdollar : c ≠ '$') :
    c ∈ (bareName (Text.trim name)).toList := by
  rw [bareName, Text.trim, Text.trimChars, Text.trimStart, Text.trimStart, String.toList_ofList,
    String.toList_ofList]
  have hstart := List.mem_reverse.2 (mem_dropWhile h hblank)
  exact mem_dropWhile (List.mem_reverse.2 (mem_dropWhile hstart hblank)) (by simpa using hdollar)

/-- A name spells the plain word that it stands for. -/
theorem map_lowerChar_of_normalise {name : String} {word : List Char}
    (hw : ∀ c ∈ word, Text.isPlain c = true) (h : normalise name = String.ofList ('$' :: word)) :
    (bareName (Text.trim name)).toList.map Text.lowerChar = word := by
  have hbare {cs : List Char} (hcs : cs.map Text.lowerChar = word) :
      cs.dropWhile (· == '$') = cs := by
    subst hcs
    exact dropWhile_dollar fun c hc => hw _ (List.mem_map_of_mem hc)
  have hdollar : ∀ c ∈ '$' :: word, Text.isPlain c = true ∨ c = '$' :=
    List.forall_mem_cons.2 ⟨.inr rfl, fun c hc => .inl (hw c hc)⟩
  rw [bareName, String.toList_ofList]
  unfold normalise at h
  dsimp only [Text.lower] at h
  split at h
  · have hlower := Text.map_lowerChar_of_lowerAfter (String.ofList_inj.1 h) hdollar
    cases hcs : (Text.trim name).toList with
    | nil =>
      rw [hcs] at hlower
      cases hlower
    | cons c cs =>
      rw [hcs, List.map_cons] at hlower
      obtain ⟨hc, hrest⟩ := List.cons.inj hlower
      rw [Text.eq_dollar_of_lowerChar hc, List.dropWhile_cons_of_pos (by decide), hbare hrest, hrest]
  · have hword : Text.lowerAfter [] (Text.trim name).toList = word := by
      have hcs := congrArg String.toList h
      simpa using hcs
    have hlower := Text.map_lowerChar_of_lowerAfter hword fun c hc => .inl (hw c hc)
    rw [hbare hlower, hlower]

/-- A name that lowers to a plain word stands for it. -/
theorem normalise_of_map_lowerChar {name : String} {word : List Char}
    (hw : ∀ c ∈ word, Text.isPlain c = true) (h : name.toList.map Text.lowerChar = word) :
    normalise name = String.ofList ('$' :: word) := by
  have hplain : ∀ c ∈ name.toList, Text.isPlain (Text.lowerChar c) = true := by
    intro c hc
    apply hw
    rw [← h]
    exact List.mem_map_of_mem hc
  have htrim := Text.trim_of_plain hplain
  have hlowered : Text.lower name = String.ofList word := by
    rw [Text.lower, Text.lowerAfter_of_plain hplain, h]
  unfold normalise
  rw [htrim, hlowered]
  dsimp only
  split
  · rename_i rest heq
    rw [String.toList_ofList] at heq
    exact absurd (hw '$' (by rw [heq]; exact List.mem_cons_self)) (by decide)
  · rw [String.ofList_cons]
    rfl

/-- Without its blanks and dollar signs a name still stands for the same function. -/
theorem normalise_bareName {name : String} {word : List Char}
    (hw : ∀ c ∈ word, Text.isPlain c = true) (h : normalise name = String.ofList ('$' :: word)) :
    normalise (bareName (Text.trim name)) = normalise name := by
  rw [h, normalise_of_map_lowerChar hw (map_lowerChar_of_normalise hw h)]

namespace Vocabulary
variable {σ : Type}

theorem mem_insertWord {word other : List Char} {words : List (List Char)} :
    other ∈ insertWord word words ↔ other = word ∨ other ∈ words := by
  induction words with
  | nil => simp [insertWord]
  | cons w words ih =>
    rw [insertWord]
    split
    · rename_i h
      simp [eq_of_beq h]
    · split
      · simp
      · simp only [List.mem_cons, ih]
        grind

/-- Whether no word is tried before a longer one. -/
def LongestFirst (words : List (List Char)) : Prop :=
  words.Pairwise fun a b => b.length ≤ a.length

theorem longestFirst_insertWord {word : List Char} {words : List (List Char)}
    (h : LongestFirst words) : LongestFirst (insertWord word words) := by
  induction words with
  | nil => exact List.pairwise_singleton _ _
  | cons w words ih =>
    obtain ⟨hw, hwords⟩ := List.pairwise_cons.1 h
    rw [insertWord]
    split
    · exact h
    · split
      · rename_i hbefore
        have hlen : w.length ≤ word.length := by
          simp only [precedes, Bool.or_eq_true, decide_eq_true_eq, Bool.and_eq_true,
            beq_iff_eq] at hbefore
          omega
        refine List.pairwise_cons.2 ⟨?_, h⟩
        intro other ho
        rcases List.mem_cons.1 ho with rfl | ho
        · exact hlen
        · exact Nat.le_trans (hw other ho) hlen
      · rename_i hbefore
        have hlen : word.length ≤ w.length := by
          simp only [precedes, Bool.or_eq_true, decide_eq_true_eq, not_or] at hbefore
          omega
        refine List.pairwise_cons.2 ⟨?_, ih hwords⟩
        intro other ho
        rcases mem_insertWord.1 ho with rfl | ho
        · exact hlen
        · exact hw other ho

theorem longestFirst_wordsOf (names : List String) : LongestFirst (wordsOf names) := by
  have hfold : ∀ (new words : List (List Char)), LongestFirst words →
      LongestFirst (new.foldl
        (fun words word => if word.isEmpty then words else insertWord word words) words) := by
    intro new
    induction new with
    | nil => exact fun words h => h
    | cons word new ih =>
      intro words h
      rw [List.foldl_cons]
      split
      · exact ih words h
      · exact ih _ (longestFirst_insertWord h)
  exact hfold _ [] List.Pairwise.nil

/-- The words of some names are their bare forms that are not empty. -/
theorem mem_wordsOf {names : List String} {word : List Char} :
    word ∈ wordsOf names ↔ word ≠ [] ∧ ∃ name ∈ names, (bareName name).toList = word := by
  have hfold : ∀ (new words : List (List Char)),
      word ∈ new.foldl
        (fun words word => if word.isEmpty then words else insertWord word words) words ↔
          word ∈ words ∨ word ≠ [] ∧ word ∈ new := by
    intro new
    induction new with
    | nil => simp
    | cons w new ih =>
      intro words
      rw [List.foldl_cons, ih]
      split
      · rename_i hempty
        rw [List.isEmpty_iff.1 hempty]
        grind
      · rename_i hempty
        have hne : w ≠ [] := fun h => hempty (List.isEmpty_iff.2 h)
        rw [mem_insertWord]
        grind
  rw [wordsOf, hfold]
  simp

/-- Whether words are plain and none is tried before a longer one. -/
structure PlainWords (words : List (List Char)) : Prop where
  plain : ∀ word ∈ words, word ≠ [] ∧ ∀ c ∈ word, Text.isPlain c = true
  ordered : LongestFirst words

/-- Whether the words of a vocabulary are plain, and a name that resolves spells one of
them and resolves without its blanks and dollar signs too. -/
structure Plain (v : Vocabulary σ) : Prop where
  words : PlainWords v.words
  spells : ∀ {name : String} {native : Native σ}, v.resolve name = some native →
    (bareName (Text.trim name)).toList.map Text.lowerChar ∈ v.words
  bare : ∀ {name : String} {native : Native σ}, v.resolve name = some native →
    v.resolve (bareName (Text.trim name)) = some native

section Natives
variable {natives : List (Native σ)}

/-- A normal name that the vocabulary knows is the name or an alias of a native. -/
theorem exists_name_of_mem_keys {key : String}
    (h : key ∈ (ofNatives natives).natives.keys ++ (ofNatives natives).aliases.keys) :
    ∃ n ∈ natives, ∃ name ∈ n.signature.names, key = normalise name := by
  rcases List.mem_append.1 h with h | h
  · have h := Keyed.mem_keys_ofList h
    obtain ⟨entry, he, hkey⟩ := List.mem_map.1 h
    obtain ⟨n, hn, hentry⟩ := List.mem_map.1 he
    refine ⟨n, hn, n.signature.name, List.mem_cons_self, ?_⟩
    rw [← hkey, ← hentry]
  · have h := Keyed.mem_keys_ofList h
    obtain ⟨entry, he, hkey⟩ := List.mem_map.1 h
    obtain ⟨n, hn, he⟩ := List.mem_flatMap.1 he
    obtain ⟨other, ho, hentry⟩ := List.mem_map.1 he
    refine ⟨n, hn, other, List.mem_cons_of_mem _ ho, ?_⟩
    rw [← hkey, ← hentry]

/-- A name that resolves is known, as the name of a native or as an alias. -/
theorem mem_keys_of_resolve {v : Vocabulary σ} {name : String} {native : Native σ}
    (h : v.resolve name = some native) :
    normalise name ∈ v.natives.keys ++ v.aliases.keys := by
  rcases Option.or_eq_some_iff.1 h with h | ⟨-, h⟩
  · exact List.mem_append_left _ (Keyed.mem_keys_of_get? h)
  · obtain ⟨canonical, h, -⟩ := Option.bind_eq_some_iff.1 h
    exact List.mem_append_right _ (Keyed.mem_keys_of_get? h)

/-- The names and aliases of some natives, in normal form. -/
def knownNames (natives : List (Native σ)) : List String :=
  natives.flatMap fun n => n.signature.names.map normalise

/-- The name of a native is a key of its vocabulary. -/
theorem mem_keys_of_mem {n : Native σ} (hn : n ∈ natives) :
    normalise n.signature.name ∈ (ofNatives natives).natives.keys := by
  have hentry : (normalise n.signature.name, n) ∈
      natives.map fun n => (normalise n.signature.name, n) :=
    List.mem_map.2 ⟨n, hn, rfl⟩
  exact Keyed.mem_keys_ofList_of_mem hentry

/-- Every name and every alias is a key of the vocabulary. -/
theorem mem_keys_ofNatives_iff {key : String} :
    key ∈ (ofNatives natives).natives.keys ++ (ofNatives natives).aliases.keys ↔
      key ∈ knownNames natives := by
  constructor
  · intro h
    obtain ⟨n, hn, name, hname, hkey⟩ := exists_name_of_mem_keys h
    exact List.mem_flatMap.2 ⟨n, hn, List.mem_map.2 ⟨name, hname, hkey.symm⟩⟩
  · intro h
    obtain ⟨n, hn, hkey⟩ := List.mem_flatMap.1 h
    obtain ⟨name, hname, hkey⟩ := List.mem_map.1 hkey
    rw [← hkey]
    rcases List.mem_cons.1 hname with rfl | hother
    · exact List.mem_append_left _ (mem_keys_of_mem hn)
    · have hentry : (normalise name, normalise n.signature.name) ∈
          natives.flatMap fun n => n.signature.aliases.map fun other =>
            (normalise other, normalise n.signature.name) :=
        List.mem_flatMap.2 ⟨n, hn, List.mem_map.2 ⟨name, hother, rfl⟩⟩
      exact List.mem_append_right _ (Keyed.mem_keys_ofList_of_mem hentry)

/-- What a name resolves to is one of the natives. -/
theorem mem_of_resolve {name : String} {native : Native σ}
    (h : (ofNatives natives).resolve name = some native) : native ∈ natives := by
  have hnative {key : String} (hkey : (ofNatives natives).natives.get? key = some native) :
      native ∈ natives := by
    obtain ⟨n, hn, hentry⟩ := List.mem_map.1 (Keyed.mem_of_get?_ofList hkey)
    exact (Prod.mk.inj hentry).2 ▸ hn
  rcases Option.or_eq_some_iff.1 h with h | ⟨-, h⟩
  · exact hnative h
  · obtain ⟨_, -, h⟩ := Option.bind_eq_some_iff.1 h
    exact hnative h

/-- What an alias stands for is the name of a native. -/
theorem mem_keys_of_alias {key canonical : String}
    (h : (ofNatives natives).aliases.get? key = some canonical) :
    canonical ∈ (ofNatives natives).natives.keys := by
  obtain ⟨n, hn, hentry⟩ := List.mem_flatMap.1 (Keyed.mem_of_get?_ofList h)
  obtain ⟨other, -, hentry⟩ := List.mem_map.1 hentry
  rw [← (Prod.mk.inj hentry).2]
  exact mem_keys_of_mem hn

/-- **A name resolves exactly when its normal form is known.** -/
theorem resolve_isSome_iff {name : String} :
    ((ofNatives natives).resolve name).isSome = true ↔ normalise name ∈ knownNames natives := by
  constructor
  · intro h
    obtain ⟨native, h⟩ := Option.isSome_iff_exists.1 h
    exact mem_keys_ofNatives_iff.1 (mem_keys_of_resolve h)
  · intro h
    rw [resolve, Option.isSome_or, Bool.or_eq_true]
    rcases List.mem_append.1 (mem_keys_ofNatives_iff.2 h) with h | h
    · exact .inl (Keyed.mem_keys_iff.1 h)
    · obtain ⟨canonical, hc⟩ := Option.isSome_iff_exists.1 (Keyed.mem_keys_iff.1 h)
      rw [hc]
      exact .inr (Keyed.mem_keys_iff.1 (mem_keys_of_alias hc))

theorem mem_words_ofNatives {word : List Char} :
    word ∈ (ofNatives natives).words ↔
      word ≠ [] ∧ ∃ name ∈ knownNames natives, (bareName name).toList = word := by
  simp only [← mem_keys_ofNatives_iff]
  exact mem_wordsOf

variable (hplain : ∀ n ∈ natives, ∀ name ∈ n.signature.names, PlainName (normalise name))
include hplain

theorem plainName_of_mem_keys {key : String}
    (h : key ∈ (ofNatives natives).natives.keys ++ (ofNatives natives).aliases.keys) :
    PlainName key := by
  obtain ⟨n, hn, name, hname, hkey⟩ := exists_name_of_mem_keys h
  rw [hkey]
  exact hplain n hn name hname

theorem plainWords_ofNatives : PlainWords (ofNatives natives).words where
  plain := by
    intro word h
    obtain ⟨hne, key, hkey, rfl⟩ := mem_wordsOf.1 h
    obtain ⟨word, hword, hchars, rfl⟩ := plainName_of_mem_keys hplain hkey
    refine ⟨hne, ?_⟩
    rw [toList_bareName hchars]
    exact hchars
  ordered := longestFirst_wordsOf _

/-- **The vocabulary of natives with plain names is plain.** -/
theorem plain_ofNatives : Plain (ofNatives natives) where
  words := plainWords_ofNatives hplain
  spells := by
    intro name native h
    have hkey := mem_keys_of_resolve h
    obtain ⟨word, hne, hchars, hname⟩ := plainName_of_mem_keys hplain hkey
    rw [map_lowerChar_of_normalise hchars hname]
    refine mem_wordsOf.2 ⟨hne, _, hkey, ?_⟩
    rw [hname, toList_bareName hchars]
  bare := by
    intro name native h
    obtain ⟨word, -, hchars, hname⟩ := plainName_of_mem_keys hplain (mem_keys_of_resolve h)
    rw [← h, resolve, normalise_bareName hchars hname]
    rfl

end Natives

end Vocabulary

end TagTemplate
