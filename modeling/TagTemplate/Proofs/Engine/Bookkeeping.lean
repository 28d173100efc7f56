import TagTemplate.Proofs.Engine.Cache

/-! How long an engine keeps a program.

A request finds its template among the kept ones, or fails to compile it, or compiles it and
makes room for it: `issue_cases` says so once, and all else follows from it. There are never
more programs kept than the capacity allows, and serial numbers are given out in ascending
order, so what comes back twice under one number is one program: `Tidy`.

`keeps_until_dropped`: a program comes back for its template until the engine is cleared or
flushes, and an engine flushes only where a template that is not kept finds no room. -/
namespace TagTemplate

namespace Keyed
variable {α : Type}

theorem length_insert_le (key : String) (value : α) (entries : Keyed α) :
    (insert key value entries).length ≤ entries.length + 1 := by
  induction entries with
  | nil => simp [insert]
  | cons entry rest ih =>
    simp only [insert]
    split
    · simp
    · split
      · simp
      · simpa using ih

end Keyed

namespace Engine
variable {σ : Type}

/-- Whether a template makes an engine drop all that it keeps: it compiles, it is not kept,
and there is no room for it. -/
structure Flushes (e : Engine σ) (source : String) (path : Option String) : Prop where
  compiles : ∃ p, e.compile source path = .ok p
  missing : Keyed.get? (key source path) e.issues = none
  keeping : e.capacity ≠ 0
  full : e.issues.length = e.capacity

/-- Whether an engine no longer keeps something that it kept. -/
def Loses (e e' : Engine σ) : Prop :=
  ∃ k issue, Keyed.get? k e.issues = some issue ∧ Keyed.get? k e'.issues ≠ some issue

/-- Whether a request drops what an engine keeps: it clears the engine, or it asks for a
template that makes the engine flush. -/
def Request.Drops (r : Request σ) (e : Engine σ) : Prop :=
  match r.template? with
  | none => True
  | some (source, path) => e.Flushes source path

/-- Whether none of some requests drops what is kept when it comes to it. -/
def Undisturbed (e : Engine σ) : List (Request σ) → Prop
  | [] => True
  | r :: rest => ¬ r.Drops e ∧ (e.step r).Undisturbed rest

/-! ### One request -/

/-- What an engine does for a template: it finds it, it cannot compile it, or it compiles it
and keeps it under the next serial number. -/
theorem issue_cases (e : Engine σ) (source : String) (path : Option String) :
    (∃ issue, Keyed.get? (key source path) e.issues = some issue ∧
      e.issue source path = .ok (issue, e)) ∨
    (∃ error, Keyed.get? (key source path) e.issues = none ∧
      e.compile source path = .error error ∧ e.issue source path = .error error) ∨
    ∃ p, Keyed.get? (key source path) e.issues = none ∧ e.compile source path = .ok p ∧
      e.issue source path =
        .ok (⟨e.next, p⟩, { e with next := e.next + 1 }.keep (key source path) ⟨e.next, p⟩) := by
  cases hget : Keyed.get? (key source path) e.issues with
  | some issue => exact .inl ⟨issue, rfl, by simp only [Engine.issue, hget]⟩
  | none =>
    cases hp : e.compile source path with
    | error error =>
      refine .inr (.inl ⟨error, rfl, rfl, ?_⟩)
      simp only [Engine.issue, hget, hp]
      rfl
    | ok p =>
      refine .inr (.inr ⟨p, rfl, rfl, ?_⟩)
      simp only [Engine.issue, hget, hp]
      rfl

/-- What an engine keeps when it has kept one program more. -/
theorem issues_keep (e : Engine σ) (k : String) (issue : Issue σ) :
    (e.keep k issue).issues =
      if e.capacity = 0 then e.issues
      else Keyed.insert k issue (if e.capacity ≤ e.issues.length then [] else e.issues) := by
  by_cases h : e.capacity = 0 <;> simp [keep, h]

theorem capacity_keep (e : Engine σ) (k : String) (issue : Issue σ) :
    (e.keep k issue).capacity = e.capacity := by
  by_cases h : e.capacity = 0 <;> simp [keep, h]

theorem next_keep (e : Engine σ) (k : String) (issue : Issue σ) :
    (e.keep k issue).next = e.next := by
  by_cases h : e.capacity = 0 <;> simp [keep, h]

theorem length_issues_keep {e : Engine σ} (h : e.issues.length ≤ e.capacity) (k : String)
    (issue : Issue σ) : (e.keep k issue).issues.length ≤ e.capacity := by
  rw [issues_keep]
  by_cases hzero : e.capacity = 0
  · rwa [if_pos hzero]
  · rw [if_neg hzero]
    have hinsert := Keyed.length_insert_le k issue
      (if e.capacity ≤ e.issues.length then [] else e.issues)
    split at hinsert
    · rename_i hfull
      rw [if_pos hfull]
      simp only [List.length_nil] at hinsert
      omega
    · rename_i hroom
      rw [if_neg hroom]
      omega

/-- What is kept already is still kept beside another program, where there is room. -/
theorem get?_issues_keep {e : Engine σ} {k k' : String} {issue other : Issue σ}
    (hroom : e.capacity = 0 ∨ e.issues.length < e.capacity)
    (hmissing : Keyed.get? k e.issues = none) (hkept : Keyed.get? k' e.issues = some other) :
    Keyed.get? k' (e.keep k issue).issues = some other := by
  rw [issues_keep]
  by_cases hzero : e.capacity = 0
  · rwa [if_pos hzero]
  · have hnotFull : ¬ e.capacity ≤ e.issues.length := by omega
    have hne : k' ≠ k := by
      rintro rfl
      rw [hmissing] at hkept
      cases hkept
    rw [if_neg hzero, if_neg hnotFull, Keyed.get?_insert, if_neg hne]
    exact hkept

/-- Where there is no room, the new program is all that is kept. -/
theorem issues_keep_of_full {e : Engine σ} (hkeeping : e.capacity ≠ 0)
    (hfull : e.issues.length = e.capacity) (k : String) (issue : Issue σ) :
    (e.keep k issue).issues = [(k, issue)] := by
  rw [issues_keep, if_neg hkeeping, if_pos (Nat.le_of_eq hfull.symm)]
  rfl

/-! ### Any requests -/

/-- Whether an engine keeps no more than its capacity, and only programs with serial numbers
that were given out. -/
structure Tidy (capacity : Nat) (e : Engine σ) : Prop where
  sameCapacity : e.capacity = capacity
  bound : e.issues.length ≤ capacity
  given : ∀ k issue, Keyed.get? k e.issues = some issue → issue.serial < e.next

namespace Tidy
variable {capacity : Nat} {e : Engine σ}

theorem keep (h : Tidy capacity e) (k : String) (p : Program σ) :
    Tidy capacity ({ e with next := e.next + 1 }.keep k ⟨e.next, p⟩) where
  sameCapacity := (capacity_keep _ _ _).trans h.sameCapacity
  bound := by
    have hbound : e.issues.length ≤ e.capacity := h.sameCapacity ▸ h.bound
    have hlength := length_issues_keep (e := { e with next := e.next + 1 }) hbound k ⟨e.next, p⟩
    exact Nat.le_trans hlength (Nat.le_of_eq h.sameCapacity)
  given := by
    intro k' issue hget
    rw [issues_keep] at hget
    rw [next_keep]
    show issue.serial < e.next + 1
    have hold (hget : Keyed.get? k' e.issues = some issue) : issue.serial < e.next + 1 :=
      Nat.lt_succ_of_lt (h.given k' issue hget)
    split at hget
    · exact hold hget
    · rw [Keyed.get?_insert] at hget
      split at hget
      · cases hget
        exact Nat.lt_succ_self _
      · split at hget
        · cases hget
        · exact hold hget

theorem compile (h : Tidy capacity e) (source : String) (path : Option String) :
    Tidy capacity (e.step (.compile source path)) := by
  rcases e.issue_cases source path with ⟨_, -, hissue⟩ | ⟨_, -, -, hissue⟩ | ⟨p, -, -, hissue⟩
  · simpa only [step, hissue] using h
  · simpa only [step, hissue] using h
  · simpa only [step, hissue] using h.keep (key source path) p

theorem step (h : Tidy capacity e) (r : Request σ) : Tidy capacity (e.step r) := by
  cases r with
  | compile source path => exact h.compile source path
  | clear => exact ⟨h.sameCapacity, Nat.zero_le _, nofun⟩
  | render source keywords memory =>
    rw [step_render]
    exact h.compile source none

/-- **Requests leave an engine tidy.** -/
theorem after (h : Tidy capacity e) (requests : List (Request σ)) :
    Tidy capacity (e.after requests) := by
  induction requests generalizing e with
  | nil => exact h
  | cons r rest ih => exact ih (h.step r)

theorem flushes_of_full (h : Tidy capacity e) {source : String} {path : Option String}
    {p : Program σ} (hp : e.compile source path = .ok p)
    (hmissing : Keyed.get? (key source path) e.issues = none)
    (hroom : ¬ (e.capacity = 0 ∨ e.issues.length < e.capacity)) : e.Flushes source path where
  compiles := ⟨p, hp⟩
  missing := hmissing
  keeping hzero := hroom (.inl hzero)
  full := by
    have hbound := h.bound
    rw [← h.sameCapacity] at hbound
    omega

/-- What is kept is still kept after a request that does not drop it. -/
theorem get?_step (h : Tidy capacity e) {r : Request σ} (hr : ¬ r.Drops e) {k : String}
    {issue : Issue σ} (hkept : Keyed.get? k e.issues = some issue) :
    Keyed.get? k (e.step r).issues = some issue := by
  have hcompile (source : String) (path : Option String) (hflushes : ¬ e.Flushes source path) :
      Keyed.get? k (e.step (.compile source path)).issues = some issue := by
    rcases e.issue_cases source path with ⟨_, -, hissue⟩ | ⟨_, -, -, hissue⟩ |
      ⟨p, hmissing, hp, hissue⟩
    · simpa only [Engine.step, hissue] using hkept
    · simpa only [Engine.step, hissue] using hkept
    · simp only [Engine.step, hissue]
      refine get?_issues_keep (e := { e with next := e.next + 1 }) ?_ hmissing hkept
      exact Classical.not_not.1 fun hroom => hflushes (h.flushes_of_full hp hmissing hroom)
  cases r with
  | compile source path => exact hcompile source path hr
  | clear => exact absurd trivial hr
  | render source keywords memory =>
    rw [step_render]
    exact hcompile source none hr

/-- What is kept is still kept after requests that drop nothing. -/
theorem get?_after (h : Tidy capacity e) {requests : List (Request σ)}
    (hrequests : e.Undisturbed requests) {k : String} {issue : Issue σ}
    (hkept : Keyed.get? k e.issues = some issue) :
    Keyed.get? k (e.after requests).issues = some issue := by
  induction requests generalizing e with
  | nil => exact hkept
  | cons r rest ih =>
    obtain ⟨hr, hrest⟩ := hrequests
    exact ih (h.step r) hrest (h.get?_step hr hkept)

end Tidy

theorem tidy_new (v : Vocabulary σ) (settings : Settings) (capacity : Nat) :
    Tidy capacity (new v settings capacity) where
  sameCapacity := rfl
  bound := Nat.zero_le _
  given := nofun

/-- An engine that keeps anything keeps the program that it has just handed out. -/
theorem get?_of_issue {e e' : Engine σ} {source : String} {path : Option String} {issue : Issue σ}
    (hcapacity : e.capacity ≠ 0) (h : e.issue source path = .ok (issue, e')) :
    Keyed.get? (key source path) e'.issues = some issue := by
  rcases e.issue_cases source path with ⟨_, hget, hissue⟩ | ⟨_, -, -, hissue⟩ | ⟨p, -, -, hissue⟩
  · cases hissue.symm.trans h
    exact hget
  · cases hissue.symm.trans h
  · cases hissue.symm.trans h
    rw [issues_keep, if_neg hcapacity, Keyed.get?_insert, if_pos rfl]

theorem issue_of_get? {e : Engine σ} {source : String} {path : Option String} {issue : Issue σ}
    (h : Keyed.get? (key source path) e.issues = some issue) :
    e.issue source path = .ok (issue, e) := by
  simp only [Engine.issue, h]

/-- An engine that flushes keeps the new program and nothing else. -/
theorem Flushes.issues_eq {e e' : Engine σ} {source : String} {path : Option String}
    {issue : Issue σ} (hflushes : e.Flushes source path)
    (h : e.issue source path = .ok (issue, e')) : e'.issues = [(key source path, issue)] := by
  rcases e.issue_cases source path with ⟨_, hget, -⟩ | ⟨_, -, -, hissue⟩ | ⟨p, -, -, hissue⟩
  · rw [hflushes.missing] at hget
    cases hget
  · cases hissue.symm.trans h
  · cases hissue.symm.trans h
    exact issues_keep_of_full (e := { e with next := e.next + 1 }) hflushes.keeping hflushes.full _ _

/-- An engine that flushes loses what it kept. -/
theorem Flushes.loses {e e' : Engine σ} {source : String} {path : Option String}
    {issue : Issue σ} (hflushes : e.Flushes source path)
    (h : e.issue source path = .ok (issue, e')) : e.Loses e' := by
  have hne : e.issues ≠ [] := by
    intro hnil
    have hfull := hflushes.full
    rw [hnil] at hfull
    exact hflushes.keeping hfull.symm
  obtain ⟨⟨k, other⟩, rest, hissues⟩ := List.exists_cons_of_ne_nil hne
  have hfirst : Keyed.get? k e.issues = some other := by simp [hissues, Keyed.get?]
  have hkey : k ≠ key source path := by
    rintro rfl
    have hmissing := hflushes.missing
    rw [hfirst] at hmissing
    cases hmissing
  refine ⟨k, other, hfirst, ?_⟩
  rw [hflushes.issues_eq h]
  simp [Keyed.get?, hkey]

/-- **An engine keeps a program until it is cleared or flushes.** After any requests it keeps
no more programs than its capacity. A template that does not compile leaves it as it is. For
any other it hands out the kept program, or else a new one under a serial number that is
greater than those of all kept ones; and if it keeps anything, it hands the same out again
until it is cleared or flushes. Programs are lost exactly where it flushes, which is where the
template compiles, is not kept and finds as many programs as there is room for; then the new
program alone is kept. -/
theorem keeps_until_dropped (v : Vocabulary σ) (settings : Settings) (capacity : Nat)
    (requests : List (Request σ)) :
    let e := (new v settings capacity).after requests
    e.issues.length ≤ capacity ∧
    ∀ source path,
      (∀ error, e.issue source path = .error error → e.step (.compile source path) = e) ∧
      ∀ issue e', e.issue source path = .ok (issue, e') →
        (Keyed.get? (key source path) e.issues = some issue ∨
          Keyed.get? (key source path) e.issues = none ∧
            ∀ k other, Keyed.get? k e.issues = some other → other.serial < issue.serial) ∧
        (capacity ≠ 0 → ∀ later, e'.Undisturbed later →
          (e'.after later).issue source path = .ok (issue, e'.after later)) ∧
        (e.Loses e' ↔ e.Flushes source path) ∧
        (e.Flushes source path → e'.issues = [(key source path, issue)]) := by
  intro e
  have htidy : Tidy capacity e := (tidy_new v settings capacity).after requests
  refine ⟨htidy.bound, fun source path => ⟨fun error herror => ?_, fun issue e' hissue => ?_⟩⟩
  · simp only [step, herror]
  have hstep : e.step (.compile source path) = e' := by simp only [step, hissue]
  have htidy' : Tidy capacity e' := hstep ▸ htidy.compile source path
  refine ⟨?_, ?_, ⟨?_, fun hflushes => hflushes.loses hissue⟩,
    fun hflushes => hflushes.issues_eq hissue⟩
  · rcases e.issue_cases source path with ⟨_, hget, hfound⟩ | ⟨_, -, -, hfailed⟩ |
      ⟨p, hmissing, -, hnew⟩
    · cases hfound.symm.trans hissue
      exact .inl hget
    · cases hfailed.symm.trans hissue
    · cases hnew.symm.trans hissue
      exact .inr ⟨hmissing, htidy.given⟩
  · intro hcapacity later hlater
    have hkept := get?_of_issue (fun hzero => hcapacity (htidy.sameCapacity.symm.trans hzero)) hissue
    exact issue_of_get? (htidy'.get?_after hlater hkept)
  · rintro ⟨k, other, hkept, hlost⟩
    refine Classical.byContradiction fun hflushes => hlost ?_
    rw [← hstep]
    exact htidy.get?_step (r := .compile source path) hflushes hkept

/-- With room for one program, a second template flushes the first. -/
theorem keeps_until_dropped_one :
    let e : Engine Unit := (new Vocabulary.empty {} 1).after [.compile "a" none]
    e.Flushes "b" none ∧ ∃ issue e', e.issue "b" none = .ok (issue, e') ∧ e.Loses e' ∧
      e'.issues = [(key "b" none, issue)] ∧
      (e'.after [.compile "b" none]).issue "b" none = .ok (issue, e'.after [.compile "b" none]) := by
  intro e
  obtain ⟨p, hp⟩ : ∃ p, e.compile "b" none = .ok p := ⟨_, rfl⟩
  have hmissing : Keyed.get? (key "b" none) e.issues = none := by decide +kernel
  have hflushes : e.Flushes "b" none := ⟨⟨p, hp⟩, hmissing, by decide, by decide +kernel⟩
  obtain ⟨issue, e', hissue⟩ : ∃ issue e', e.issue "b" none = .ok (issue, e') := by
    rcases e.issue_cases "b" none with ⟨_, -, h⟩ | ⟨_, -, hfails, -⟩ | ⟨_, -, -, h⟩
    · exact ⟨_, _, h⟩
    · cases hp.symm.trans hfails
    · exact ⟨_, _, h⟩
  obtain ⟨-, hkept, hloses, hissues⟩ :=
    ((keeps_until_dropped Vocabulary.empty {} 1 [.compile "a" none]).2 "b" none).2 issue e' hissue
  refine ⟨hflushes, issue, e', hissue, hloses.2 hflushes, hissues hflushes, ?_⟩
  refine hkept (by decide) [.compile "b" none] ⟨fun hagain => ?_, trivial⟩
  have hfound := get?_of_issue (by decide) hissue
  rw [hagain.missing] at hfound
  cases hfound

end Engine

end TagTemplate
