/-! Lists of entries in ascending order of their keys.

A keyed list holds at most one entry per key. `insert` keeps the order and
replaces the entry of an equal key, so a list built by inserts depends only on
what was inserted last under each key. -/
namespace TagTemplate

/-- Entries under text keys, in ascending order by code points. -/
abbrev Keyed (α : Type) := List (String × α)

namespace Keyed
variable {α : Type}

/-- Puts an entry under a key, in place of the one that was there. -/
def insert (key : String) (value : α) : Keyed α → Keyed α
  | [] => [(key, value)]
  | entry :: rest =>
    if key == entry.1 then (key, value) :: rest
    else if key < entry.1 then (key, value) :: entry :: rest
    else entry :: insert key value rest

/-- The entry under a key. -/
def get? (key : String) : Keyed α → Option α
  | [] => none
  | entry :: rest => if key == entry.1 then some entry.2 else get? key rest

/-- The keys in ascending order. -/
def keys (entries : Keyed α) : List String := entries.map (·.1)

/-- The keyed list of some entries; of two under one key the later stays. -/
def ofList (entries : List (String × α)) : Keyed α :=
  entries.foldl (fun acc entry => insert entry.1 entry.2 acc) []

@[simp] theorem get?_insert (key other : String) (value : α) (entries : Keyed α) :
    (insert key value entries).get? other = if other = key then some value else entries.get? other := by
  induction entries with
  | nil => simp [insert, get?]
  | cons entry rest ih =>
    simp only [insert]
    split
    · rename_i h
      simp only [beq_iff_eq] at h
      subst h
      by_cases ho : other = entry.1 <;> simp [get?, ho]
    · split
      · simp [get?]
      · rename_i h _
        simp only [beq_iff_eq] at h
        by_cases ho : other = entry.1
        · subst ho
          simp [get?, Ne.symm h]
        · simp [get?, ho, ih]

end Keyed

end TagTemplate
