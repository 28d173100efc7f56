import TagTemplate.Proofs.Json.Shapes
import TagTemplate.Proofs.Json.Written
import TagTemplate.Proofs.Run.Untouched

/-! The shape of expanded values.

An expansion replaces the strings of a value by strings, and nothing else: `Run.expandAt_reshaped`.
What becomes of a string is said by `Run.MayBecome`. A string without a tag shape stays. The JSON
text of an array or object is replaced by the text of a value of the same shape, and since that
text can be read again (`Json.read_compact`), nothing that comes of a tag in it can add an entry,
drop one or move one. Any other string becomes the text that its program leaves. -/
namespace TagTemplate.Run
variable {σ : Type}

/-- Whether an expansion may make one string of another. -/
inductive MayBecome : String → String → Prop
  /-- Without a tag shape it stays. -/
  | plain {s : String} (shapeless : Tag.hasShape s = false) : MayBecome s s
  /-- A JSON text is written anew, for a value of the same shape. -/
  | container {s : String} {v w : Json} (shape : Tag.hasShape s = true)
    (read : Json.containerIn s = some v) (reshaped : v.Reshaped MayBecome w) :
    MayBecome s w.compact
  /-- Any other text is run. -/
  | text {s : String} (t : String) (shape : Tag.hasShape s = true)
    (unread : Json.containerIn s = none) : MayBecome s t

theorem MayBecome.eq_of_plain {s t : String} (h : MayBecome s t)
    (shapeless : Tag.hasShape s = false) : t = s := by
  cases h with
  | plain => rfl
  | container shape _ _ | text _ shape _ =>
    rw [shapeless] at shape
    cases shape

/-- **What becomes of a JSON text can be read again**, as a value of the same shape. -/
theorem MayBecome.read_again {s t : String} {v : Json} (h : MayBecome s t)
    (shape : Tag.hasShape s = true) (read : Json.containerIn s = some v) :
    ∃ w d, t = w.compact ∧ v.Reshaped MayBecome w ∧ Document.read t = some d ∧ d.Says w := by
  cases h with
  | plain shapeless =>
    rw [shapeless] at shape
    cases shape
  | text _ _ unread =>
    rw [read] at unread
    cases unread
  | @container _ v' w _ read' reshaped =>
    cases read.symm.trans read'
    obtain ⟨d, hread, hsays⟩ := w.read_compact
    exact ⟨w, d, rfl, reshaped, hread, hsays⟩

/-- A string becomes a string, whatever comes of the texts that are run. -/
theorem expandString_mayBecome {text : String → Run σ String} {fuel : Nat} {s : String}
    (hfuel : s.length < fuel) {c : Clocked (Context σ)} {v : Json}
    (h : (expandString text fuel s c).1 = some v) : ∃ t, v = .string t ∧ MayBecome s t := by
  induction fuel generalizing s c v with
  | zero => exact absurd hfuel (Nat.not_lt_zero _)
  | succ fuel ih =>
    rw [expandString] at h
    split at h
    · rename_i hplain
      cases h
      exact ⟨s, rfl, .plain (by simpa using hplain)⟩
    · rename_i hshape
      have shape : Tag.hasShape s = true := by simpa using hshape
      cases read : Json.containerIn s with
      | some v =>
        rw [read] at h
        dsimp only at h
        rw [Timed.bind_pure_apply] at h
        obtain ⟨w, hw, rfl⟩ := Option.map_eq_some_iff.1 h
        have hshort := Json.length_lt_of_containerIn read
        refine ⟨w.compact, rfl, .container shape read (v.reshaped_of_eachString ?_ hw)⟩
        intro t ht d u hu
        have := hshort t ht
        exact ih (by omega) hu
      | none =>
        rw [read] at h
        dsimp only at h
        rw [Timed.bind_pure_apply] at h
        obtain ⟨t, -, rfl⟩ := Option.map_eq_some_iff.1 h
        exact ⟨t, rfl, .text t shape read⟩

/-- **An expansion keeps the shape of a value**, in every context. Without a deadline it comes to
an end. Strings become strings, those without a tag shape stay, and if there is no other nothing is
run. The JSON text of an array or object becomes the text of a value of the same shape. -/
theorem expandAt_reshaped (depth : Nat) (v : Json) (c : Clocked (Context σ)) :
    (c.remaining = none → ∃ w, (expandAt depth v c).1 = some w) ∧
      (∀ w, (expandAt depth v c).1 = some w →
        v.Reshaped (fun s t => (Tag.hasShape s = false → t = s) ∧
          (c.state.settings.expand = true → MayBecome s t)) w) ∧
      (∀ s t u, MayBecome s t → Tag.hasShape s = true → Json.containerIn s = some u →
        ∃ w d, t = w.compact ∧ u.Reshaped MayBecome w ∧ Document.read t = some d ∧ d.Says w) ∧
      (c.state.settings.expand = false → expandAt depth v c = (some v, c)) ∧
      ((∀ s ∈ v.strings, Tag.hasShape s = false) → expandAt depth v c = (some v, c)) := by
  refine ⟨fun hclock => ?ends, fun w hw => ?reshaped, fun s t u h => h.read_again,
    expandAt_of_not_expand depth v, fun hplain => ?plain⟩
  case ends =>
    obtain ⟨w, after, hw, -⟩ := (Quiet.expandAt depth v).ends hclock
    exact ⟨w, congrArg Prod.fst hw⟩
  case reshaped =>
    cases hexpand : c.state.settings.expand with
    | false =>
      rw [expandAt_of_not_expand depth v hexpand] at hw
      cases hw
      exact v.reshaped_self fun s _ => ⟨fun _ => rfl, nofun⟩
    | true =>
      rw [expandAt_of_expand depth v hexpand] at hw
      refine v.reshaped_of_eachString (fun s _ d u hu => ?_) hw
      obtain ⟨t, rfl, hbecomes⟩ := expandString_mayBecome (Nat.lt_succ_self _) hu
      exact ⟨t, rfl, hbecomes.eq_of_plain, fun _ => hbecomes⟩
  case plain =>
    cases hexpand : c.state.settings.expand with
    | false => exact expandAt_of_not_expand depth v hexpand
    | true =>
      rw [expandAt_of_expand depth v hexpand,
        v.eachString_eq_self fun s hs => expandString_of_hasShape (hplain s hs) _]
      rfl

/-- A function returns a text that would close a string and begin an entry. The JSON text around
it still has one entry, with that text as its value; the string behind it stays. -/
theorem expandAt_reshaped_quoted :
    let wild : Native Unit :=
      ⟨{ name := "$wild" }, false, fun _ => .succeed (.string "\",\"b\":\"c")⟩
    let c : Clocked (Context Unit) := ⟨none, { program := ⟨"", none, "", [], ⟨[]⟩, 0⟩
                                               vocabulary := .ofNatives [wild]
                                               memory := () }⟩
    let v : Json := .array [.string " \x7b\"a\": \"$wild\"\x7d", .string "b", .null]
    let w : Json :=
      .array [.string "\x7b\"a\":\"\\\",\\\"b\\\":\\\"c\"\x7d", .string "b", .null]
    (expandAt 0 v c).1 = some w ∧
      v.Reshaped (fun s t => (Tag.hasShape s = false → t = s) ∧
        (c.state.settings.expand = true → MayBecome s t)) w := by
  intro wild c v w
  have hexpand : (expandAt 0 v c).1 = some w := by decide +kernel
  exact ⟨hexpand, (expandAt_reshaped 0 v c).2.1 w hexpand⟩

end TagTemplate.Run
