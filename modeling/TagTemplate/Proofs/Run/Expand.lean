import TagTemplate.Proofs.Tag.Shapes
import TagTemplate.Run.Expand

/-! Values without dollar signs.

Every tag shape begins with a dollar sign, and the text of a value spells out all the
strings in it. So expanding leaves a value alone when its text has no dollar sign. -/
namespace TagTemplate

/-! ### Texts -/

namespace Tag

/-- A text without dollar signs has no tag shape in it. -/
theorem hasShape_eq_false {s : String} (h : '$' ∉ s.toList) : hasShape s = false := by
  rw [Bool.eq_false_iff, ne_eq, hasShape_iff]
  rintro ⟨before, first, behind, hs, -⟩
  exact h (by rw [hs]; exact List.mem_append_right _ List.mem_cons_self)

end Tag

theorem dollar_mem_quoted {s : String} (h : '$' ∈ s.toList) : '$' ∈ quoted s := by
  have hescaped : '$' ∈ s.toList.flatMap escapeChar := List.mem_flatMap.2 ⟨'$', h, by decide⟩
  exact List.mem_cons_of_mem _ (List.mem_append_left _ hescaped)

/-! ### Values -/

namespace Json
variable {S : Type} {f : String → Timed S Json}

theorem display_eq_compact {v : Json} (h : v.isContainer = true) : v.display = v.compact := by
  match v, h with
  | .array items, _ => rw [display] <;> exact nofun
  | .object entries, _ => rw [display] <;> exact nofun

/-- Whether an action on strings keeps those without dollar signs. -/
def KeepsPlain (f : String → Timed S Json) : Prop :=
  ∀ s : String, '$' ∉ s.toList → f s = pure (.string s)

mutual

/-- An action that keeps plain strings keeps every value whose text is plain. -/
theorem eachString_eq_pure (hf : KeepsPlain f) (v : Json) (level : Nat)
    (h : '$' ∉ (Document.ofJson v).renderAt .compact level) : eachString f v = pure v := by
  match v with
  | .null => rfl
  | .bool _ => rfl
  | .number _ => rfl
  | .string s =>
    rw [Document.ofJson, Document.renderAt] at h
    exact hf s fun hs => h (dollar_mem_quoted hs)
  | .array [] => rfl
  | .array (v :: vs) =>
    simp only [Document.ofJson, Document.ofItems, Document.renderAt, List.mem_cons,
      List.mem_append, not_or] at h
    rw [eachString, eachStringOfItems, eachString_eq_pure hf v _ h.2.1.2,
      eachStringOfItems_eq_pure hf vs _ h.2.2.1]
    rfl
  | .object [] => rfl
  | .object ((k, v) :: vs) =>
    simp only [Document.ofJson, Document.ofFields, Document.renderAt, List.mem_cons,
      List.mem_append, not_or] at h
    rw [eachString, eachStringOfEntries, eachString_eq_pure hf v _ h.2.1.2,
      eachStringOfEntries_eq_pure hf vs _ h.2.2.1]
    rfl

theorem eachStringOfItems_eq_pure (hf : KeepsPlain f) (vs : List Json) (level : Nat)
    (h : '$' ∉ Document.renderItems .compact level (Document.ofItems vs)) :
    eachStringOfItems f vs = pure vs := by
  match vs with
  | [] => rfl
  | v :: vs =>
    simp only [Document.ofItems, Document.renderItems, List.mem_cons, List.mem_append,
      not_or] at h
    rw [eachStringOfItems, eachString_eq_pure hf v _ h.2.1.2,
      eachStringOfItems_eq_pure hf vs _ h.2.2]
    rfl

theorem eachStringOfEntries_eq_pure (hf : KeepsPlain f) (vs : List (String × Json))
    (level : Nat) (h : '$' ∉ Document.renderEntries .compact level (Document.ofFields vs)) :
    eachStringOfEntries f vs = pure vs := by
  match vs with
  | [] => rfl
  | (k, v) :: vs =>
    simp only [Document.ofFields, Document.renderEntries, List.mem_cons, List.mem_append,
      not_or] at h
    rw [eachStringOfEntries, eachString_eq_pure hf v _ h.2.1.2,
      eachStringOfEntries_eq_pure hf vs _ h.2.2]
    rfl

end

/-- The same, said of the text that the value stands for in a template. -/
theorem eachString_of_display (hf : KeepsPlain f) (v : Json) (h : '$' ∉ v.display.toList) :
    eachString f v = pure v := by
  match v with
  | .string s => exact hf s h
  | .null => rfl
  | .bool _ => rfl
  | .number _ => rfl
  | .array items =>
    rw [display_eq_compact rfl, compact, Document.render, String.toList_ofList] at h
    exact eachString_eq_pure hf _ 0 h
  | .object entries =>
    rw [display_eq_compact rfl, compact, Document.render, String.toList_ofList] at h
    exact eachString_eq_pure hf _ 0 h

end Json

namespace Run
variable {σ : Type}

theorem expandString_of_hasShape {text : String → Run σ String} {s : String}
    (h : Tag.hasShape s = false) (fuel : Nat) :
    expandString text fuel s = pure (.string s) := by
  cases fuel with
  | zero => rfl
  | succ fuel => rw [expandString, h]; rfl

/-- A text without tag shape needs no expansion. -/
theorem expandWith_of_hasShape (text : String → Run σ String) {s : String}
    (h : Tag.hasShape s = false) : expandWith text (.string s) = pure (.string s) := by
  funext c
  rw [expandWith, Timed.bind_some (Timed.get_apply c)]
  split
  · rw [Json.eachString, expandString_of_hasShape h]
  · rfl

/-- **Expanding leaves a value alone whose text has no dollar sign.** -/
theorem expandWith_of_display (text : String → Run σ String) {v : Json}
    (h : '$' ∉ v.display.toList) : expandWith text v = pure v := by
  funext c
  rw [expandWith, Timed.bind_some (Timed.get_apply c)]
  split
  · rw [Json.eachString_of_display (fun s hs => ?_) v h]
    exact expandString_of_hasShape (Tag.hasShape_eq_false hs) _
  · rfl

end Run

end TagTemplate
