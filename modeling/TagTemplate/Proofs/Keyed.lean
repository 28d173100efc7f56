import TagTemplate.Keyed

/-! Keyed lists.

A key is in a keyed list exactly where an entry stands under it, and in the list of some entries
that is the one that was given last. Inserts keep the keys in ascending order. -/
namespace TagTemplate.Keyed
variable {α : Type}

/-! ### Keys -/

theorem mem_keys_iff {key : String} {entries : Keyed α} :
    key ∈ entries.keys ↔ (entries.get? key).isSome = true := by
  induction entries with
  | nil => exact ⟨nofun, nofun⟩
  | cons entry rest ih =>
    rw [get?, keys, List.map_cons, List.mem_cons]
    split
    · rename_i h
      exact ⟨fun _ => rfl, fun _ => .inl (eq_of_beq h)⟩
    · rename_i h
      rw [← ih]
      exact ⟨fun hkey => hkey.resolve_left fun heq => h (beq_iff_eq.2 heq), .inr⟩

theorem mem_keys_insert {key other : String} {value : α} {entries : Keyed α}
    (h : other ∈ (insert key value entries).keys) : other = key ∨ other ∈ entries.keys := by
  rw [mem_keys_iff, get?_insert] at h
  split at h
  · exact .inl ‹_›
  · exact .inr (mem_keys_iff.2 h)

/-- The keys of a keyed list are keys of the entries that it was made of. -/
theorem mem_keys_ofList {key : String} {entries : List (String × α)}
    (h : key ∈ (ofList entries).keys) : key ∈ entries.map (·.1) := by
  have hfold : ∀ (entries : List (String × α)) (acc : Keyed α),
      key ∈ (entries.foldl (fun acc entry => insert entry.1 entry.2 acc) acc).keys →
        key ∈ entries.map (·.1) ∨ key ∈ acc.keys := by
    intro entries
    induction entries with
    | nil => exact fun acc h => .inr h
    | cons entry rest ih =>
      intro acc h
      rcases ih _ h with h | h
      · exact .inl (List.mem_cons.2 (.inr h))
      · rcases mem_keys_insert h with rfl | h
        · exact .inl (List.mem_cons.2 (.inl rfl))
        · exact .inr h
  rcases hfold entries [] h with h | h
  · exact h
  · cases h

theorem mem_keys_of_get? {key : String} {value : α} {entries : Keyed α}
    (h : entries.get? key = some value) : key ∈ entries.keys :=
  mem_keys_iff.2 (Option.isSome_of_eq_some h)

theorem ne_of_get?_eq_none {key other : String} {entries : Keyed α} (h : entries.get? key = none)
    (hother : other ∈ entries.keys) : other ≠ key := by
  rintro rfl
  rw [mem_keys_iff, h] at hother
  cases hother

/-- Under each key stands the entry that was given last. -/
theorem get?_ofList {key : String} {entries : List (String × α)} :
    (ofList entries).get? key = entries.reverse.lookup key := by
  have hfold : ∀ (entries : List (String × α)) (acc : Keyed α),
      get? key (entries.foldl (fun acc entry => insert entry.1 entry.2 acc) acc) =
        (entries.reverse.lookup key).or (acc.get? key) := by
    intro entries
    induction entries with
    | nil => exact fun acc => rfl
    | cons entry rest ih =>
      obtain ⟨name, a⟩ := entry
      intro acc
      rw [List.foldl_cons, ih, get?_insert, List.reverse_cons, List.lookup_append, Option.or_assoc]
      congr 1
      by_cases h : key = name
      · simp [h]
      · simp [List.lookup_cons, h, beq_false_of_ne h]
  rw [ofList, hfold]
  exact Option.or_none

/-- What stands under a key was given under it. -/
theorem mem_of_get?_ofList {key : String} {value : α} {entries : List (String × α)}
    (h : (ofList entries).get? key = some value) : (key, value) ∈ entries := by
  rw [get?_ofList] at h
  obtain ⟨before, after, heq, -⟩ := List.lookup_eq_some_iff.1 h
  exact List.mem_reverse.1 (heq ▸ List.mem_append_right _ List.mem_cons_self)

/-- Every key that was given is a key. -/
theorem mem_keys_ofList_of_mem {key : String} {value : α} {entries : List (String × α)}
    (h : (key, value) ∈ entries) : key ∈ (ofList entries).keys := by
  rw [mem_keys_iff, get?_ofList, List.lookup_isSome_iff]
  exact ⟨_, List.mem_reverse.2 h, BEq.rfl⟩

/-! ### Order -/

/-- Whether the keys stand in order, each once. -/
def Ascending (entries : Keyed α) : Prop := entries.keys.Pairwise (· < ·)

theorem Ascending.insert {entries : Keyed α} (h : entries.Ascending) (key : String) (value : α) :
    (Keyed.insert key value entries).Ascending := by
  induction entries with
  | nil => exact List.pairwise_singleton _ _
  | cons entry rest ih =>
    obtain ⟨hfirst, hrest⟩ := List.pairwise_cons.1 h
    rw [Keyed.insert]
    split
    · rename_i hkey
      rw [eq_of_beq hkey]
      exact h
    · rename_i hne
      split
      · rename_i hlt
        refine List.pairwise_cons.2 ⟨fun other hother => ?_, h⟩
        rcases List.mem_cons.1 hother with rfl | hother
        · exact hlt
        · exact String.lt_trans hlt (hfirst other hother)
      · rename_i hnlt
        refine List.pairwise_cons.2 ⟨fun other hother => ?_, ih hrest⟩
        rcases mem_keys_insert hother with rfl | hother
        · grind
        · exact hfirst other hother

/-- The list of some entries has its keys in order. -/
theorem ascending_ofList (entries : List (String × α)) : (ofList entries).Ascending := by
  have hfold (acc : Keyed α) (hacc : acc.Ascending) :
      (entries.foldl (fun acc entry => insert entry.1 entry.2 acc) acc).Ascending := by
    induction entries generalizing acc with
    | nil => exact hacc
    | cons entry rest ih => exact ih _ (hacc.insert _ _)
  exact hfold [] .nil

end TagTemplate.Keyed
