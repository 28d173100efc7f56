import TagTemplate.Proofs.Vocabulary

/-! Who answers to a name.

Natives are registered in order, and the last one stays under each name. Aliases stand for names
and not for natives, and the last one stays under each alias too. So a name resolves to the last
native of that name, or else by way of the last native with that alias to the last native that has
the name of that one. An alias stays when the native that declared it is replaced, and then it
leads to a native that need not answer to it: `resolve_answers_iff`. -/
namespace TagTemplate.Vocabulary
variable {σ : Type} {natives : List (Native σ)} {key : String}

/-! ### The last native of a name -/

/-- Whether a key is the normal name of a native. -/
def Named (key : String) (n : Native σ) : Prop := normalise n.signature.name = key

/-- Whether a key is the normal form of an alias of a native. -/
def Aliased (key : String) (n : Native σ) : Prop := key ∈ n.signature.aliases.map normalise

instance (n : Native σ) : Decidable (Named key n) := inferInstanceAs (Decidable (_ = _))

instance (n : Native σ) : Decidable (Aliased key n) := inferInstanceAs (Decidable (_ ∈ _))

/-- The last of some natives of which something holds. -/
def lastWith (p : Native σ → Prop) [DecidablePred p] (natives : List (Native σ)) :
    Option (Native σ) :=
  natives.reverse.find? fun n => p n

/-- A native answers to its name and its aliases. -/
theorem mem_names_iff {n : Native σ} :
    key ∈ n.signature.names.map normalise ↔ Named key n ∨ Aliased key n := by
  rw [Signature.names, List.map_cons, List.mem_cons, eq_comm]
  rfl

section Last
variable {p : Native σ → Prop} [DecidablePred p]

/-- The last one is one that stands somewhere with none of its kind behind it. -/
theorem lastWith_eq_some_iff {n : Native σ} :
    lastWith p natives = some n ↔
      p n ∧ ∃ before after, natives = before ++ n :: after ∧ ∀ m ∈ after, ¬p m := by
  rw [lastWith, List.find?_eq_some_iff_append, decide_eq_true_iff]
  refine and_congr_right fun _ => ⟨?_, ?_⟩
  · rintro ⟨after, before, heq, hnone⟩
    refine ⟨before.reverse, after.reverse, ?_, fun m hm => ?_⟩
    · rw [← List.reverse_reverse natives, heq]
      simp
    · simpa using hnone m (List.mem_reverse.1 hm)
  · rintro ⟨before, after, rfl, hnone⟩
    refine ⟨after.reverse, before.reverse, by simp, fun m hm => ?_⟩
    simpa using hnone m (List.mem_reverse.1 hm)

theorem lastWith_eq_none_iff : lastWith p natives = none ↔ ∀ m ∈ natives, ¬p m := by
  simp [lastWith]

/-- The last one among natives is the last one behind a place, if there is one. -/
theorem mem_of_lastWith_append {n m : Native σ} {before after : List (Native σ)}
    (h : lastWith p (before ++ after) = some n) (hm : m ∈ after) (hp : p m) : n ∈ after := by
  rw [lastWith, List.reverse_append, List.find?_append] at h
  cases hlast : after.reverse.find? fun n => p n with
  | none =>
    have hnone := List.find?_eq_none.1 hlast m (List.mem_reverse.2 hm)
    exact absurd (decide_eq_true hp) hnone
  | some last =>
    rw [hlast] at h
    cases h
    exact List.mem_reverse.1 (List.mem_of_find?_eq_some hlast)

end Last

/-! ### Resolution -/

/-- What stands under a key in a list of entries made from items. -/
theorem lookup_map {α β : Type} (f : α → String) (g : α → β) (as : List α) :
    (as.map fun a => (f a, g a)).lookup key = (as.find? fun a => f a = key).map g := by
  induction as with
  | nil => rfl
  | cons a as ih =>
    rw [List.map_cons, List.lookup_cons, List.find?_cons, ih]
    by_cases h : f a = key
    · rw [decide_eq_true h, beq_iff_eq.2 h.symm]
      rfl
    · rw [decide_eq_false h, beq_false_of_ne (Ne.symm h)]

/-- Under a name stands its last native. -/
theorem get?_natives : (ofNatives natives).natives.get? key = lastWith (Named key) natives := by
  rw [ofNatives, Keyed.get?_ofList, ← List.map_reverse, lookup_map]
  exact Option.map_id'

/-- Under an alias stands the name of the last native that has it. -/
theorem get?_aliases : (ofNatives natives).aliases.get? key =
    (lastWith (Aliased key) natives).map fun n => normalise n.signature.name := by
  have hone (n : Native σ) :
      (n.signature.aliases.map fun other =>
        (normalise other, normalise n.signature.name)).reverse.lookup key =
          if Aliased key n then some (normalise n.signature.name) else none := by
    rw [← List.map_reverse, lookup_map]
    split
    · rename_i h
      obtain ⟨other, hother, hkey⟩ := List.mem_map.1 h
      have hfound : (n.signature.aliases.reverse.find? fun a => normalise a = key).isSome :=
        List.find?_isSome.2 ⟨other, List.mem_reverse.2 hother, decide_eq_true hkey⟩
      obtain ⟨_, hfound⟩ := Option.isSome_iff_exists.1 hfound
      rw [hfound, Option.map_some]
    · rename_i h
      rw [Option.map_eq_none_iff, List.find?_eq_none]
      intro other hother hkey
      exact h (List.mem_map.2 ⟨other, List.mem_reverse.1 hother, of_decide_eq_true hkey⟩)
  have hlookup (ns : List (Native σ)) :
      (ns.flatMap fun n => (n.signature.aliases.map fun other =>
        (normalise other, normalise n.signature.name)).reverse).lookup key =
          (ns.find? fun n => Aliased key n).map fun n => normalise n.signature.name := by
    induction ns with
    | nil => rfl
    | cons n ns ih =>
      rw [List.flatMap_cons, List.lookup_append, List.find?_cons, ih, hone]
      by_cases h : Aliased key n
      · rw [decide_eq_true h, if_pos h]
        rfl
      · rw [decide_eq_false h, if_neg h]
        rfl
  rw [ofNatives, Keyed.get?_ofList, List.reverse_flatMap]
  exact hlookup natives.reverse

/-- **A name resolves to its last native, or else to the last native that has the name of the last
one with that alias.** -/
theorem resolve_eq {name : String} : (ofNatives natives).resolve name =
    (lastWith (Named (normalise name)) natives).or
      ((lastWith (Aliased (normalise name)) natives).bind fun n =>
        lastWith (Named (normalise n.signature.name)) natives) := by
  rw [resolve, get?_natives, get?_aliases, Option.bind_map]
  simp only [get?_natives, Function.comp_def]

/-- Where no two natives share a name, each answers to its own. -/
theorem resolve_of_nodup (hnodup : (natives.map fun n => normalise n.signature.name).Nodup)
    {n : Native σ} (hn : n ∈ natives) {name : String}
    (hname : normalise n.signature.name = normalise name) :
    (ofNatives natives).resolve name = some n := by
  obtain ⟨before, after, rfl⟩ := List.append_of_mem hn
  rw [List.map_append, List.map_cons, List.nodup_append, List.nodup_cons] at hnodup
  have hlast : lastWith (Named (normalise name)) (before ++ n :: after) = some n := by
    refine lastWith_eq_some_iff.2 ⟨hname, before, after, rfl, fun m hm hnamed => ?_⟩
    exact hnodup.2.1.1 (List.mem_map.2 ⟨m, hm, hnamed.trans hname.symm⟩)
  rw [resolve_eq, hlast]
  rfl

/-! ### Aliases that stay -/

/-- Whether a key is an alias that stayed when its native was replaced: the last native with the
alias has another one of its name behind it, and no native has the key as its name. -/
def LeftBehind (natives : List (Native σ)) (key : String) : Prop :=
  (∀ m ∈ natives, ¬Named key m) ∧
    ∃ before n after, natives = before ++ n :: after ∧ Aliased key n ∧
      (∀ m ∈ after, ¬Aliased key m) ∧ ∃ m ∈ after, Named (normalise n.signature.name) m

/-- A native that a name resolves to answers to it, unless the name is an alias that was left
behind. -/
theorem answers_of_resolve {name : String} {native : Native σ}
    (h : (ofNatives natives).resolve name = some native) :
    normalise name ∈ native.signature.names.map normalise ↔
      ¬LeftBehind natives (normalise name) := by
  rw [mem_names_iff]
  rw [resolve_eq, Option.or_eq_some_iff] at h
  rcases h with h | ⟨hnone, h⟩
  · obtain ⟨hnamed, before, after, rfl, -⟩ := lastWith_eq_some_iff.1 h
    exact iff_of_true (.inl hnamed) fun hleft => hleft.1 native (by simp) hnamed
  · obtain ⟨n, hn, hnative⟩ := Option.bind_eq_some_iff.1 h
    obtain ⟨hsame, -⟩ := lastWith_eq_some_iff.1 hnative
    have hnone := lastWith_eq_none_iff.1 hnone
    constructor
    · rintro hanswers ⟨-, before, other, after, heq, halias, hlast, m, hm, hname⟩
      -- The alias leads to the name of `other`, whose last native stands behind `other`.
      have hother := lastWith_eq_some_iff.2 ⟨halias, before, after, heq, hlast⟩
      rw [hn] at hother
      cases hother
      rw [heq, List.append_cons] at hnative
      have hmem := mem_of_lastWith_append hnative hm hname
      refine hanswers.elim (hnone native ?_) (hlast native hmem)
      rw [heq]
      exact List.mem_append_right _ (List.mem_cons_of_mem _ hmem)
    · intro hleft
      obtain ⟨halias, before, after, heq, hlast⟩ := lastWith_eq_some_iff.1 hn
      have hbehind : ∀ m ∈ after, ¬Named (normalise n.signature.name) m := fun m hm hname =>
        hleft ⟨hnone, before, n, after, heq, halias, hlast, m, hm, hname⟩
      have hself : lastWith (Named (normalise n.signature.name)) natives = some n :=
        lastWith_eq_some_iff.2 ⟨rfl, before, after, heq, hbehind⟩
      rw [hnative] at hself
      cases hself
      exact .inr halias

/-- An alias that was left behind resolves. -/
theorem LeftBehind.resolves (h : LeftBehind natives key) :
    ∃ name native, normalise name = key ∧ (ofNatives natives).resolve name = some native := by
  obtain ⟨-, before, n, after, rfl, halias, -⟩ := h
  obtain ⟨name, hname, rfl⟩ := List.mem_map.1 halias
  have hanswers : normalise name ∈ n.signature.names.map normalise :=
    mem_names_iff.2 (.inr halias)
  have hknown : normalise name ∈ knownNames (before ++ n :: after) :=
    List.mem_flatMap.2 ⟨n, List.mem_append_right _ List.mem_cons_self, hanswers⟩
  obtain ⟨native, hnative⟩ := Option.isSome_iff_exists.1 (resolve_isSome_iff.2 hknown)
  exact ⟨name, native, rfl, hnative⟩

/-- **A name resolves to a native that answers to it exactly when it is not an alias that stayed
when its native was replaced.** So all names do exactly when no alias was left behind. -/
theorem resolve_answers_iff :
    (∀ name native, (ofNatives natives).resolve name = some native →
      (normalise name ∈ native.signature.names.map normalise ↔
        ¬LeftBehind natives (normalise name))) ∧
    ((∀ name native, (ofNatives natives).resolve name = some native →
      normalise name ∈ native.signature.names.map normalise) ↔ ∀ key, ¬LeftBehind natives key) := by
  refine ⟨fun name native h => answers_of_resolve h, fun hall key hleft => ?_, ?_⟩
  · obtain ⟨name, native, rfl, h⟩ := hleft.resolves
    exact (answers_of_resolve h).1 (hall name native h) hleft
  · exact fun hnone name native h => (answers_of_resolve h).2 (hnone _)

/-- The native `$dup` with the alias `$copy`, replaced by one of its name without aliases, leaves
the alias behind. -/
theorem resolve_replaced :
    let first : Native Unit := ⟨.named "$dup" ["$copy"], false, fun _ => .succeed .null⟩
    let second : Native Unit := ⟨.named "$dup" [], false, fun _ => .succeed .null⟩
    (ofNatives [first, second]).resolve "$copy" = some second ∧
      normalise "$copy" ∉ second.signature.names.map normalise ∧
      LeftBehind [first, second] (normalise "$copy") := by
  refine ⟨rfl, by decide, by decide, [], _, [_], rfl, by decide, by decide, ?_⟩
  exact ⟨_, List.mem_cons_self, by decide⟩

end TagTemplate.Vocabulary
