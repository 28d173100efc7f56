import TagTemplate.Proofs.Program.Outcome
import TagTemplate.Proofs.Tag.Words

/-! Reading in place gives what reading tokens gives.

A turn does not change what a head comes to, and where a head ends, it ends with it (`turn_gives`).
So a template is compiled by a head, which keeps in step with the tags and stays in the text all the
way: `compileAt_inStep`. -/
namespace TagTemplate

namespace Program
variable {σ : Type} {v : Vocabulary σ} {depth : Nat} {cs : List Char}

namespace Head
variable {h : Head σ}

/-- A completed invocation is written to the innermost text. -/
theorem resumeWith_eq (h : Head σ) (i : Invocation σ) (c : Cursor) :
    resumeWith v depth h.listings h.draft i c =
      resume v depth (h.write (·.invoke i)).listings (h.write (·.invoke i)).draft c := by
  obtain ⟨index, passed, next, draft, listings⟩ := h
  cases listings with
  | nil => rfl
  | cons l ls => rfl

theorem outcome_complete (h : Head σ) (tag : Tag) (native : Native σ)
    (fields : Option (List (Field (Invocation σ)))) :
    (h.complete depth tag native fields).outcome v depth cs =
      resumeWith v depth h.listings h.draft (.mk (tag.heading native h.next depth) native fields)
        ⟨Token.scanFrom v.words cs h.index, h.next + 1⟩ := by
  rw [resumeWith_eq]
  simp only [outcome, cursor, complete, write_index]

/-- Where a tag is entered, its invocation is to be read. -/
theorem enter_gives (h : Head σ) (p : Tag.Placed) :
    (h.enter v depth cs p).Gives v depth cs
      (invocationAt v depth p.start p.tag ⟨Token.scanFrom v.words cs p.stop, h.next⟩ >>=
        fun (i, c) => resumeWith v depth h.listings h.draft i c) := by
  rw [enter]
  dsimp only
  split
  · rename_i unknown
    rw [invocationAt_unknown unknown]
    rfl
  · rename_i native resolved
    have hbare (bare : ReadsArguments v depth native.signature.args
        ⟨Token.scanFrom v.words cs p.stop, h.next⟩ none ⟨Token.scanFrom v.words cs p.stop, h.next⟩) :
        Turn.Gives v depth cs (invocationAt v depth p.start p.tag
          ⟨Token.scanFrom v.words cs p.stop, h.next⟩ >>= fun (i, c) =>
            resumeWith v depth h.listings h.draft i c)
          (.goes (Head.complete { h with index := p.stop, passed := h.passed + 1 } depth p.tag native
            none)) := by
      rw [invocationAt_bare resolved bare]
      exact outcome_complete ..
    split
    · rename_i declared
      exact hbare (declared ▸ .noSchema)
    · rename_i schema declared
      split
      · rename_i hopens
        rw [Token.scanFrom_plain v.words hopens (by decide) (by decide),
          invocationAt_listed resolved declared]
        rfl
      · rename_i hopens
        have unlisted : ¬ Cursor.opensList ⟨Token.scanFrom v.words cs p.stop, h.next⟩ := by
          intro hlist
          obtain ⟨ts, hts⟩ := List.head?_eq_some_iff.1 hlist
          exact hopens (Token.getElem?_of_scanFrom hts)
        split
        · rename_i hbrackets
          rw [invocationAt_missing resolved declared hbrackets unlisted]
          rfl
        · rename_i hoptional
          exact hbare (declared ▸ .omitted (by simpa using hoptional) unlisted)

/-- What a head that is at top level comes to. -/
theorem outcome_text (htop : h.listings = []) :
    h.outcome v depth cs = textAt v depth h.draft (h.cursor v cs) := by
  rw [outcome, htop]
  rfl

/-- What a head that is in an argument list comes to. -/
theorem outcome_list {l : Listing σ} {ls : List (Listing σ)} (hlistings : h.listings = l :: ls) :
    h.outcome v depth cs =
      l.finish v depth (h.cursor v cs) >>= fun (i, c) => resumeWith v depth ls h.draft i c := by
  rw [outcome, hlistings]
  rfl

theorem passText_gives (htop : h.listings = []) {p : Tag.Placed}
    (hp : p ∈ Tag.places v.words cs) (hahead : h.index < p.start)
    (hplain : ∀ p ∈ Tag.places v.words cs, p.start ≠ h.index) :
    (h.passText cs).Gives v depth cs (h.outcome v depth cs) := by
  obtain ⟨-, hlt, hle⟩ := Tag.stop_of_mem_places hp
  have hinside : h.index < cs.length := by omega
  have hc : cs[h.index]? = some cs[h.index] := List.getElem?_eq_getElem hinside
  have htake (count : Nat) (c : Char) : (h.take count c).outcome v depth cs =
      textAt v depth (h.draft.char c) ⟨Token.scanFrom v.words cs (h.index + count), h.next⟩ := by
    rw [outcome_text (by simp [take, write, htop])]
    simp [take, write, htop, cursor]
  rw [passText, hc, outcome_text htop, cursor]
  dsimp only
  split
  · rename_i hescape
    have hd : cs[h.index + 1]? = some cs[h.index + 1] := List.getElem?_eq_getElem hescape.2
    obtain ⟨hidden, htoken⟩ :=
      Token.scanFrom_escape v.words (hc.trans (congrArg some hescape.1)) hd
    have hany := Token.any_marksTag_scanFrom.2 ⟨p, hp, Nat.le_of_lt hahead⟩
    rw [htoken] at hany
    rw [hd, htoken, textAt_escape hany]
    exact htake 2 _
  · rename_i hescape
    have hback (h' : cs[h.index] = '\\') : cs[h.index + 1]? = none := by
      rw [List.getElem?_eq_none_iff]
      exact Nat.le_of_not_lt fun hmore => hescape ⟨h', hmore⟩
    rw [Token.scanFrom_char v.words hc hplain hback, textAt_char]
    exact htake 1 _

/-- Where no tag is to come, the rest of the text is taken as it is. -/
theorem outcome_rest (htop : h.listings = [])
    (hlast : ∀ p ∈ Tag.places v.words cs, ¬ h.index ≤ p.start) :
    h.outcome v depth cs = .ok { h.draft with
      text := h.draft.text.pushText (String.ofList (cs.drop h.index)) } := by
  have hnone : (Token.scanFrom v.words cs h.index).any Token.marksTag = false := by
    rw [Bool.eq_false_iff, ne_eq, Token.any_marksTag_scanFrom]
    rintro ⟨p, hp, hle⟩
    exact hlast p hp hle
  rw [outcome_text htop, cursor, textAt_rest hnone, Token.flatMap_spelling_scanFrom,
    Draft.extend_chars]

/-- Where a tag starts, its invocation is what comes next at top level. -/
theorem outcome_text_tag (htop : h.listings = []) {p : Tag.Placed}
    (hp : p ∈ Tag.places v.words cs) (hhere : p.start = h.index) :
    h.outcome v depth cs =
      invocationAt v depth p.start p.tag ⟨Token.scanFrom v.words cs p.stop, h.next⟩ >>=
        fun (i, c) => resumeWith v depth h.listings h.draft i c := by
  rw [outcome_text htop, cursor, ← hhere, Token.scanFrom_tag hp, textAt_tag, htop]
  rfl

section
variable (hf : h.Fits cs (Tag.places v.words cs))
include hf

/-- A tag is handed out where it starts. -/
theorem ahead?_of_start {p : Tag.Placed} (hp : p ∈ Tag.places v.words cs)
    (hstart : p.start = h.index) : h.ahead? (Tag.places v.words cs) = some p := by
  obtain ⟨q, hq, hle⟩ :=
    hf.exists_ahead? (Tag.pairwise_places v.words cs) hp (Nat.le_of_eq hstart.symm)
  have hle' := le_start_of_ahead? hq
  rw [hq, Tag.eq_of_start_eq (List.mem_of_getElem? hq) hp (by omega)]

theorem turnText_gives (htop : h.listings = []) :
    (h.turnText v depth cs (Tag.places v.words cs)).Gives v depth cs (h.outcome v depth cs) := by
  rw [turnText]
  split
  · rename_i p hahead
    have hp : p ∈ Tag.places v.words cs := List.mem_of_getElem? hahead
    have hle := le_start_of_ahead? hahead
    split
    · rename_i hhere
      rw [outcome_text_tag htop hp hhere]
      exact enter_gives ..
    · rename_i hhere
      refine passText_gives (h := h.seek _) htop hp (Nat.lt_of_le_of_ne hle (Ne.symm hhere)) ?_
      intro q hq hstart
      rw [ahead?_of_start hf hq hstart] at hahead
      exact hhere (Option.some.inj hahead ▸ hstart)
  · rename_i hnone
    rw [if_pos hf.index_le]
    refine (outcome_rest htop fun p hp hle => ?_).symm
    obtain ⟨q, hq, -⟩ := hf.exists_ahead? (Tag.pairwise_places v.words cs) hp hle
    rw [hnone] at hq
    cases hq

end

/-! ### In an argument list -/

section
variable {l : Listing σ} {ls : List (Listing σ)} (hlistings : h.listings = l :: ls)
include hlistings

/-- A head that takes a character for its argument. -/
theorem outcome_take (count : Nat) (c : Char) :
    (h.take count c).outcome v depth cs =
      Listing.finish v depth { l with draft := l.draft.char c }
        ⟨Token.scanFrom v.words cs (h.index + count), h.next⟩ >>= fun (i, c) =>
          resumeWith v depth ls h.draft i c := by
  have htaken : (h.take count c).listings = { l with draft := l.draft.char c } :: ls := by
    simp [take, write, hlistings]
  rw [outcome_list htaken]
  simp only [take, write, hlistings, cursor]

variable {spec : FieldSpec} {specs : List FieldSpec}
  (hspecs : l.schema.fields.drop l.spec = spec :: specs)
include hspecs

/-- Where a tag starts, its invocation is what comes next in an argument. -/
theorem outcome_list_tag {p : Tag.Placed} (hp : p ∈ Tag.places v.words cs)
    (hhere : p.start = h.index) :
    h.outcome v depth cs =
      invocationAt v depth p.start p.tag ⟨Token.scanFrom v.words cs p.stop, h.next⟩ >>=
        fun (i, c) => resumeWith v depth h.listings h.draft i c := by
  rw [outcome_list hlistings, Listing.finish_eq hspecs, cursor, ← hhere, Token.scanFrom_tag hp,
    fieldAt_tag, hlistings]
  cases invocationAt v depth p.start p.tag ⟨Token.scanFrom v.words cs p.stop, h.next⟩ with
  | error problem => rfl
  | ok one =>
    obtain ⟨i, c⟩ := one
    simp only [Except.ok_bind, resumeWith]
    rw [Listing.finish_eq (l := { l with draft := l.draft.invoke i }) hspecs]
    rfl

/-- Where the closing bracket ends an argument, the invocation is complete. -/
theorem endField_gives_close (hc : cs[h.index]? = some ']') :
    (h.endField depth l ls spec ']').Gives v depth cs (h.outcome v depth cs) := by
  rw [outcome_list hlistings, cursor, Token.scanFrom_plain v.words hc (by decide) (by decide),
    Listing.finish_eq hspecs, fieldAt_close (.inr rfl), endField, if_pos rfl]
  exact outcome_complete ..

/-- Where a separator ends an argument, another one is to follow, under the same spec if that
repeats, and under the next one otherwise. -/
theorem endField_gives_next (hc : cs[h.index]? = some ';') :
    (h.endField depth l ls spec ';').Gives v depth cs (h.outcome v depth cs) := by
  have hnext : l.schema.fields.drop (l.spec + 1) = specs := by
    rw [← List.tail_drop, hspecs]
    rfl
  rw [outcome_list hlistings, cursor, Token.scanFrom_plain v.words hc (by decide) (by decide),
    Listing.finish_eq hspecs, fieldAt_close (.inl rfl), endField, if_neg (by decide)]
  simp only [Except.ok_bind, show (';' == ']') = false from rfl]
  by_cases hrest : spec.rest = true
  · rw [if_pos hrest, Listing.finishAfter_rest hspecs hrest]
    rfl
  · rw [if_neg hrest]
    cases specs with
    | nil =>
      rw [if_neg (Nat.not_lt.2 (List.drop_eq_nil_iff.1 hnext)), Listing.finishAfter_beyond hrest]
      rfl
    | cons spec' specs =>
      have hmore : l.spec + 1 < l.schema.fields.length := by
        refine Nat.lt_of_not_le fun hle => ?_
        rw [List.drop_eq_nil_of_le hle] at hnext
        cases hnext
      rw [if_pos hmore, Listing.finishAfter_next hnext hrest]
      rfl

theorem passField_gives {c : Char} (goesOn : c ≠ ';' ∧ c ≠ ']')
    (htoken : Token.scanFrom v.words cs h.index =
      .char c :: Token.scanFrom v.words cs (h.index + 1)) (hle : h.index ≤ cs.length) :
    (h.passField cs l ls spec c).Gives v depth cs (h.outcome v depth cs) := by
  have hfound := Token.operator?_scanFrom htoken spec.condition l.before
  have hchar (hnone : Token.operator? spec.condition l.before
      (.char c :: Token.scanFrom v.words cs (h.index + 1)) = none) :
      Turn.Gives v depth cs (h.outcome v depth cs) (.goes (h.take 1 c)) := by
    refine (outcome_take hlistings 1 c).trans ?_
    rw [outcome_list hlistings, cursor, htoken,
      Listing.finish_congr hspecs (fieldAt_char goesOn hnone)]
  rw [passField, if_pos hle]
  split
  · rename_i hsplit
    rw [if_pos hsplit] at hfound
    split
    · rename_i op hop
      rw [hop] at hfound
      rw [outcome_list hlistings, cursor, htoken,
        Listing.finish_congr hspecs (fieldAt_operator goesOn hfound),
        Token.drop_operator_scanFrom htoken hop]
      rfl
    · rename_i hnone
      exact hchar (hfound.trans hnone)
  · rename_i hsplit
    rw [if_neg hsplit] at hfound
    exact hchar hfound

theorem turnField_gives (hf : h.Fits cs (Tag.places v.words cs)) :
    (h.turnField v depth cs (Tag.places v.words cs) l ls spec).Gives v depth cs
      (h.outcome v depth cs) := by
  rw [turnField]
  split
  · rename_i hc
    rw [outcome_list hlistings, cursor, Token.scanFrom_nil hc, Listing.finish_eq hspecs,
      fieldAt_nil]
    rfl
  · rename_i c hc
    split
    · rename_i hback
      subst hback
      split
      · rename_i hd
        have hplain : ∀ p ∈ Tag.places v.words cs, p.start ≠ h.index := fun p hp hstart => by
          have hdollar := (Tag.stop_of_mem_places hp).1
          rw [hstart, hc] at hdollar
          cases hdollar
        have htoken := Token.scanFrom_char v.words hc hplain fun _ => hd
        have hnone : Token.operator? spec.condition l.before
            (.char '\\' :: Token.scanFrom v.words cs (h.index + 1)) = none := by
          rw [Token.scanFrom_nil hd]
          exact ite_self _
        rw [outcome_list hlistings, cursor, htoken, Listing.finish_eq hspecs,
          fieldAt_char (by decide) hnone, Token.scanFrom_nil hd, fieldAt_nil]
        rfl
      · rename_i d hd
        obtain ⟨hidden, htoken⟩ := Token.scanFrom_escape v.words hc hd
        refine (outcome_take hlistings 2 d).trans ?_
        rw [outcome_list hlistings, cursor, htoken, Listing.finish_congr hspecs fieldAt_escape]
    · rename_i hback
      split
      · rename_i hends
        rcases hends with rfl | rfl
        · exact endField_gives_next hlistings hspecs hc
        · exact endField_gives_close hlistings hspecs hc
      · rename_i hends
        split
        · rename_i p hp
          obtain ⟨hahead, hhere⟩ := Option.filter_eq_some_iff.1 hp
          rw [outcome_list_tag hlistings hspecs (List.mem_of_getElem? hahead)
            (by simpa using hhere)]
          exact enter_gives (h.seek _) p
        · rename_i hnone
          have hplain : ∀ p ∈ Tag.places v.words cs, p.start ≠ h.index := fun p hp hstart => by
            rw [ahead?_of_start hf hp hstart] at hnone
            simp [hstart] at hnone
          exact passField_gives (h := h.seek _) hlistings hspecs (not_or.1 hends)
            (Token.scanFrom_char v.words hc hplain fun h => absurd h hback) hf.index_le

omit hspecs in
theorem turnList_gives (hf : h.Fits cs (Tag.places v.words cs)) :
    (h.turnList v depth cs (Tag.places v.words cs) l ls).Gives v depth cs
      (h.outcome v depth cs) := by
  obtain ⟨hl, -⟩ := List.forall_mem_cons.1 (hlistings ▸ hf.specs)
  rw [turnList]
  split
  · rename_i hfields
    have hempty : l.schema.fields.drop l.spec = [] := by rw [hfields, List.drop_nil]
    rw [outcome_list hlistings, cursor]
    split
    · rename_i hc
      rw [Token.scanFrom_nil hc, Listing.finish_ended hempty]
      rfl
    · rename_i c hc
      split
      · rename_i hclose
        subst hclose
        rw [Token.scanFrom_plain v.words hc (by decide) (by decide), Listing.finish_closed hempty]
        exact outcome_complete ..
      · rename_i hclose
        have hopen (ts : List Token) : Token.scanFrom v.words cs h.index ≠ .char ']' :: ts := by
          intro hts
          have hbracket := Token.getElem?_of_scanFrom hts
          rw [hc] at hbracket
          exact hclose (Option.some.inj hbracket)
        have hsome : Token.scanFrom v.words cs h.index ≠ [] := by
          intro hnil
          have hrest := Token.flatMap_spelling_scanFrom v.words cs h.index
          rw [hnil, List.flatMap_nil] at hrest
          have hlt := (List.getElem?_eq_some_iff.1 hc).1
          exact absurd (List.drop_eq_nil_iff.1 hrest.symm) (Nat.not_le.2 hlt)
        rw [Listing.finish_filled hempty hsome hopen]
        rfl
  · rename_i first later hfields
    have hspec : l.spec < l.schema.fields.length := hl.resolve_left fun hnil => by
      rw [hnil] at hfields
      cases hfields
    rw [List.getElem?_eq_getElem hspec]
    exact turnField_gives hlistings (List.drop_eq_getElem_cons hspec) hf

end

/-- **A turn does not change what a head comes to**, and where the head ends, it has come to it. -/
theorem turn_gives (v : Vocabulary σ) (depth : Nat) (hf : h.Fits cs (Tag.places v.words cs)) :
    (h.turn v depth cs (Tag.places v.words cs)).Gives v depth cs (h.outcome v depth cs) := by
  rw [turn]
  split
  · rename_i htop
    exact turnText_gives hf htop
  · rename_i l ls hlistings
    exact turnList_gives hlistings hf

/-! ### Runs -/

theorem stop_of_mem (words : List (List Char)) (cs : List Char) :
    ∀ p ∈ Tag.places words cs, p.start < p.stop ∧ p.stop ≤ cs.length :=
  fun _ hp => (Tag.stop_of_mem_places hp).2

/-- A run does not change what a head comes to. -/
theorem outcome_of_reaches {h' : Head σ} (hf : h.Fits cs (Tag.places v.words cs))
    (hr : h.Reaches v depth cs (Tag.places v.words cs) h') :
    h'.outcome v depth cs = h.outcome v depth cs := by
  induction hr with
  | refl => rfl
  | tail hr hgoes ih =>
    have hgives := turn_gives v depth (hf.reaches (stop_of_mem v.words cs) hr).1
    rw [hgoes] at hgives
    exact Eq.trans hgives ih

/-- How a head stands to a text and its tags, and what its next turn is. -/
structure InStep (v : Vocabulary σ) (depth : Nat) (cs : List Char) (tags : List Tag.Placed)
    (h : Head σ) : Prop where
  /-- It is at a character of the text, or at the end. -/
  index_le : h.index ≤ cs.length
  passed_le : h.passed ≤ tags.length
  /-- A tag that is handed out starts at the head or behind it, -/
  handed : ∀ p, h.ahead? tags = some p → h.index ≤ p.start
  /-- and no tag that does so is left out. -/
  first : ∀ p ∈ tags, h.index ≤ p.start → ∃ q, h.ahead? tags = some q ∧ q.start ≤ p.start
  /-- What is looked up in the text, the tags and the specs is there. -/
  stays : h.turn v depth cs tags ≠ .strays
  /-- The head comes on with each turn. -/
  comesOn : ∀ h', h.turn v depth cs tags = .goes h' → h.index < h'.index

theorem Fits.inStep (hf : h.Fits cs (Tag.places v.words cs)) :
    h.InStep v depth cs (Tag.places v.words cs) where
  index_le := hf.index_le
  passed_le := hf.passed_le
  handed _ := le_start_of_ahead?
  first _ := hf.exists_ahead? (Tag.pairwise_places v.words cs)
  stays hstrays := by
    have hsound := hf.sound_turn (stop_of_mem v.words cs) v depth
    rwa [hstrays] at hsound
  comesOn h' hgoes := by
    have hsound := hf.sound_turn (stop_of_mem v.words cs) v depth
    rw [hgoes] at hsound
    exact hsound.2

end Head

end Program

/-- The tags of a text, placed in characters; nothing if the text cannot be cut where they are. -/
def Vocabulary.placed? {σ : Type} (v : Vocabulary σ) (text : String) : Option (List Tag.Placed) :=
  Tag.place text.toList 0 0 ((v.tags? text).getD [])

/-- The tags of a text are those that are marked in it, also where there is no word to look for. -/
theorem Vocabulary.tags?_getD {σ : Type} (v : Vocabulary σ) (text : String) :
    (v.tags? text).getD [] = Tag.located 0 (Tag.tagMarks v.words text.toList) := by
  rw [tags?]
  split
  · rename_i hwords
    rw [List.isEmpty_iff.1 hwords]
    have hnone : Tag.located 0 (Tag.tagMarks [] text.toList) = [] := by
      refine List.eq_nil_iff_forall_not_mem.2 fun found hfound => ?_
      obtain ⟨index, c, hmark, -⟩ := Tag.exists_of_mem_located hfound
      obtain ⟨word, hword, -⟩ := Tag.exists_word_of_tagAt (Tag.rule_of_getElem?_marksFrom hmark)
      cases hword
    rw [hnone]
    rfl
  · rfl

namespace Program
variable {σ : Type}

/-- **A template is compiled in place.** The tags of the source can be placed in characters, one
behind the other, each where it is written. A head that starts at the first character is in step
with them wherever it comes to and never comes back; it comes to an end, and the result there is
what the template compiles to. -/
theorem compileAt_inStep (v : Vocabulary σ) (source : String) (path : Option String) (depth : Nat) :
    ∃ tags, v.placed? source = some tags ∧
      List.Forall₂ (Tag.Stands source.toList) ((v.tags? source).getD []) tags ∧
      (tags.Pairwise fun a b => a.stop ≤ b.start) ∧
      (∀ h, Head.Reaches v depth source.toList tags {} h →
        h.InStep v depth source.toList tags ∧
          ∀ h', h.Reaches v depth source.toList tags h' → h.index ≤ h'.index) ∧
      ∃ h result, Head.Reaches v depth source.toList tags {} h ∧
        h.turn v depth source.toList tags = .ends result ∧
        compileAt v source path depth = compiled source path depth result := by
  obtain ⟨hplaced, hstands, hordered⟩ := Tag.placed_tagMarks v.words source.toList
  have htags := Head.stop_of_mem v.words source.toList
  have hstart := Head.fits_start (σ := σ) source.toList (Tag.places v.words source.toList)
  refine ⟨Tag.places v.words source.toList, ?_, ?_, hordered, fun h hr => ?_, ?_⟩
  · rw [Vocabulary.placed?, v.tags?_getD, hplaced]
  · rw [v.tags?_getD]
    exact hstands
  · have hfits := (hstart.reaches htags hr).1
    exact ⟨hfits.inStep, fun h' hr' => (hfits.reaches htags hr').2⟩
  · obtain ⟨h, result, hr, hend⟩ := hstart.exists_end htags v depth
    have hgives := Head.turn_gives v depth (hstart.reaches htags hr).1
    have houtcome := Head.outcome_of_reaches hstart hr
    rw [hend] at hgives
    have hresult : textAt v depth {} ⟨Token.scanFrom v.words source.toList 0, 0⟩ = result :=
      (Eq.trans hgives houtcome).symm
    exact ⟨h, result, hr, hend, by rw [compileAt_eq, ← Token.scanFrom_zero, hresult]⟩

end Program

end TagTemplate
