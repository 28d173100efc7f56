import TagTemplate.Engine
import TagTemplate.Proofs.Program.Reading

/-! What an engine's kept programs are worth.

A kept program was compiled by the same engine, for a template with the key under which
it is kept; that is the invariant, `Keeps`, and every request preserves it. What comes
back for a template is therefore what compiling it gives, as long as no other template
that was asked for has the same key.

Two templates may share a key: the key of an absent path is that of an empty one, and
the character between path and source may also stand in either of them. Whenever one of
two such templates compiles, asking for it first and for the other then gives the wrong
program. `compileCached_eq_compile_iff` says that nothing else goes wrong. -/
namespace TagTemplate

namespace Engine
variable {σ : Type}

/-- A call on an engine. -/
inductive Request (σ : Type) where
  /-- A template is compiled, or found among the kept ones. -/
  | compile (source : String) (path : Option String)
  /-- The kept programs are dropped. -/
  | clear
  /-- A template is compiled or found, and run. -/
  | render (source : String) (keywords : Keyed Json) (memory : σ)

/-- An engine that keeps nothing yet. -/
def new (vocabulary : Vocabulary σ) (settings : Settings) (capacity : Nat) : Engine σ :=
  { vocabulary, settings, capacity }

/-- The template that a request asks for. -/
def Request.template? : Request σ → Option (String × Option String)
  | .compile source path => some (source, path)
  | .clear => none
  | .render source _ _ => some (source, none)

/-- The engine after a request. -/
def step (e : Engine σ) : Request σ → Engine σ
  | .compile source path =>
    match e.issue source path with
    | .ok (_, e) => e
    | .error _ => e
  | .clear => e.clear
  | .render source keywords memory =>
    match e.render source keywords memory with
    | .ok (_, _, e) => e
    | .error _ => e

/-- The engine after some requests. -/
def after (e : Engine σ) (requests : List (Request σ)) : Engine σ := requests.foldl step e

/-- The program that comes back for a template. -/
def compileCached (e : Engine σ) (source : String) (path : Option String) :
    Except CompileError (Program σ) :=
  (e.issue source path).map (·.1.program)

/-! ### Keys -/

theorem append_zero_inj {a a' b b' : List Char} (ha : '\x00' ∉ a) (ha' : '\x00' ∉ a')
    (h : a ++ '\x00' :: b = a' ++ '\x00' :: b') : a = a' ∧ b = b' := by
  induction a generalizing a' with
  | nil =>
    cases a' with
    | nil => exact ⟨rfl, (List.cons.inj h).2⟩
    | cons c a' => exact absurd ((List.cons.inj h).1 ▸ List.mem_cons_self) ha'
  | cons c a ih =>
    cases a' with
    | nil => exact absurd ((List.cons.inj h).1 ▸ List.mem_cons_self) ha
    | cons c' a' =>
      obtain ⟨hc, hrest⟩ := List.cons.inj h
      obtain ⟨hpath, hsource⟩ := ih (fun h => ha (List.mem_cons_of_mem _ h))
        (fun h => ha' (List.mem_cons_of_mem _ h)) hrest
      exact ⟨by rw [hc, hpath], hsource⟩

/-- Paths without the character between path and source keep keys apart, except that an
absent path passes for an empty one. -/
theorem key_inj {source source' : String} {path path' : Option String}
    (hp : '\x00' ∉ (path.getD "").toList) (hp' : '\x00' ∉ (path'.getD "").toList)
    (h : key source path = key source' path') :
    source = source' ∧ path.getD "" = path'.getD "" := by
  have hchars := congrArg String.toList h
  simp only [key, String.toList_append, List.append_assoc] at hchars
  obtain ⟨hpath, hsource⟩ := append_zero_inj hp hp' hchars
  exact ⟨String.toList_inj.1 hsource, String.toList_inj.1 hpath⟩

/-! ### The invariant -/

/-- Whether what an engine keeps is right: under each key there is a program that the
engine compiled for a template, of those asked for, with that key. -/
structure Keeps (v : Vocabulary σ) (capacity : Nat) (asked : String → Option String → Prop)
    (e : Engine σ) : Prop where
  sameVocabulary : e.vocabulary = v
  sameCapacity : e.capacity = capacity
  held : ∀ k issue, Keyed.get? k e.issues = some issue → ∃ source path, asked source path ∧
    k = key source path ∧ Program.compile v source path = .ok issue.program
  none : capacity = 0 → e.issues = []

section Invariant
variable {v : Vocabulary σ} {capacity : Nat} {asked : String → Option String → Prop} {e : Engine σ}

theorem Keeps.clear (h : Keeps v capacity asked e) : Keeps v capacity asked e.clear where
  sameVocabulary := h.sameVocabulary
  sameCapacity := h.sameCapacity
  held := nofun
  none _ := rfl

/-- A program may be kept under the key of the template it was compiled for. -/
theorem Keeps.keep (h : Keeps v capacity asked e) {source : String} {path : Option String}
    (hasked : asked source path) (issue : Issue σ)
    (hp : Program.compile v source path = .ok issue.program) (n : Nat) :
    Keeps v capacity asked ({ e with next := n }.keep (key source path) issue) := by
  unfold Engine.keep
  dsimp only
  split
  · exact ⟨h.sameVocabulary, h.sameCapacity, h.held, h.none⟩
  · rename_i hcapacity
    refine ⟨h.sameVocabulary, h.sameCapacity, ?_, ?_⟩
    · intro k other hget
      rw [Keyed.get?_insert] at hget
      split at hget
      · rename_i hk
        cases hget
        exact ⟨source, path, hasked, hk, hp⟩
      · split at hget
        · cases hget
        · exact h.held k other hget
    · intro hzero
      exact absurd (beq_iff_eq.2 (h.sameCapacity.trans hzero)) hcapacity

/-- What comes back for a template is what compiling it gives, or a program that is kept
under its key. -/
theorem Keeps.issue (h : Keeps v capacity asked e) {source : String} {path : Option String}
    (hasked : asked source path) :
    (∃ error, Program.compile v source path = .error error ∧ e.issue source path = .error error) ∨
    ∃ issue e', e.issue source path = .ok (issue, e') ∧ Keeps v capacity asked e' ∧
      (Program.compile v source path = .ok issue.program ∨
        Keyed.get? (key source path) e.issues = some issue) := by
  cases hget : Keyed.get? (key source path) e.issues with
  | some issue =>
    exact .inr ⟨issue, e, by simp only [Engine.issue, hget], h, .inr rfl⟩
  | none =>
    have hcompile : e.compile source path = Program.compile v source path := by
      rw [compile, h.sameVocabulary]
    cases hp : Program.compile v source path with
    | error error =>
      refine .inl ⟨error, rfl, ?_⟩
      simp only [Engine.issue, hget, hcompile, hp]
      rfl
    | ok p =>
      have hkeep := h.keep hasked ⟨e.next, p⟩ hp (e.next + 1)
      refine .inr ⟨⟨e.next, p⟩, _, ?_, hkeep, .inl rfl⟩
      simp only [Engine.issue, hget, hcompile, hp]
      rfl

/-- Rendering leaves the engine as asking for the program does. -/
theorem step_render (e : Engine σ) (source : String) (keywords : Keyed Json) (memory : σ) :
    e.step (.render source keywords memory) = e.step (.compile source none) := by
  simp only [step, render]
  cases e.issue source none with
  | error error => rfl
  | ok result => rfl

theorem Keeps.step (h : Keeps v capacity asked e) (r : Request σ)
    (hasked : ∀ t ∈ r.template?, asked t.1 t.2) : Keeps v capacity asked (e.step r) := by
  have hcompile {source : String} {path : Option String} (hasked : asked source path) :
      Keeps v capacity asked (e.step (.compile source path)) := by
    rcases h.issue hasked with ⟨error, -, hissue⟩ | ⟨issue, e', hissue, h', -⟩
    · simp only [Engine.step, hissue]
      exact h
    · simp only [Engine.step, hissue]
      exact h'
  cases r with
  | compile source path => exact hcompile (hasked (source, path) rfl)
  | clear => exact h.clear
  | render source keywords memory =>
    rw [step_render]
    exact hcompile (hasked (source, Option.none) rfl)

/-- **Requests keep the invariant.** -/
theorem Keeps.after (h : Keeps v capacity asked e) {requests : List (Request σ)}
    (hasked : ∀ r ∈ requests, ∀ t ∈ r.template?, asked t.1 t.2) :
    Keeps v capacity asked (e.after requests) := by
  induction requests generalizing e with
  | nil => exact h
  | cons r requests ih =>
    obtain ⟨hr, hrequests⟩ := List.forall_mem_cons.1 hasked
    exact ih (h.step r hr) hrequests

theorem keeps_new (v : Vocabulary σ) (settings : Settings) (capacity : Nat)
    (asked : String → Option String → Prop) : Keeps v capacity asked (new v settings capacity) where
  sameVocabulary := rfl
  sameCapacity := rfl
  held := nofun
  none _ := rfl

end Invariant

/-! ### When kept programs do -/

/-- Whether no two templates of those asked for share a key, unless neither compiles. -/
def TellsApart (v : Vocabulary σ) (asked : String → Option String → Prop) : Prop :=
  ∀ source path source' path' p, asked source path → asked source' path' →
    key source path = key source' path' → Program.compile v source path = .ok p →
      source = source' ∧ path = path'

/-- The program that comes back is right if the engine keeps nothing, or if the key is
the template's alone. -/
theorem Keeps.compileCached_eq {v : Vocabulary σ} {capacity : Nat}
    {asked : String → Option String → Prop} {e : Engine σ} (h : Keeps v capacity asked e)
    (hkeys : capacity = 0 ∨ TellsApart v asked) {source : String} {path : Option String}
    (hasked : asked source path) :
    e.compileCached source path = Program.compile v source path := by
  rcases h.issue hasked with ⟨error, hp, hissue⟩ | ⟨issue, e', hissue, -, hp | hget⟩
  · rw [compileCached, hissue, hp]
    rfl
  · rw [compileCached, hissue, hp]
    rfl
  · rcases hkeys with hzero | hapart
    · rw [h.none hzero] at hget
      cases hget
    · obtain ⟨source', path', hasked', hkey, hp⟩ := h.held _ _ hget
      obtain ⟨rfl, rfl⟩ := hapart _ _ _ _ _ hasked' hasked hkey.symm hp
      rw [compileCached, hissue, hp]
      rfl

/-- Paths that are not empty and do not hold the character between path and source tell
all templates apart. -/
theorem tellsApart_of_paths {v : Vocabulary σ} {asked : String → Option String → Prop}
    (h : ∀ source path, asked source path →
      path ≠ some "" ∧ '\x00' ∉ (path.getD "").toList) : TellsApart v asked := by
  intro source path source' path' p hasked hasked' hkey _
  obtain ⟨hempty, hzero⟩ := h source path hasked
  obtain ⟨hempty', hzero'⟩ := h source' path' hasked'
  obtain ⟨hsource, hpath⟩ := key_inj hzero hzero' hkey
  refine ⟨hsource, ?_⟩
  cases path with
  | none =>
    cases path' with
    | none => rfl
    | some s => exact absurd (congrArg some hpath.symm) hempty'
  | some s =>
    cases path' with
    | none => exact absurd (congrArg some hpath) hempty
    | some s' => exact congrArg some hpath

/-- An engine with room for it keeps its first program. -/
theorem keep_of_empty {e : Engine σ} (hcapacity : e.capacity ≠ 0) (hempty : e.issues = [])
    (k : String) (issue : Issue σ) : e.keep k issue = { e with issues := [(k, issue)] } := by
  unfold keep
  rw [if_neg fun h => hcapacity (beq_iff_eq.1 h), hempty, ite_self]
  rfl

theorem compileCached_of_get? {e : Engine σ} {source : String} {path : Option String}
    (issue : Issue σ) (h : Keyed.get? (key source path) e.issues = some issue) :
    e.compileCached source path = .ok issue.program := by
  simp only [compileCached, Engine.issue, h]
  rfl

/-- After a template that compiles, its program comes back for every template with the
same key. -/
theorem compileCached_of_key_eq {v : Vocabulary σ} {settings : Settings} {capacity : Nat}
    (hcapacity : capacity ≠ 0) {source source' : String} {path path' : Option String}
    {p : Program σ} (hp : Program.compile v source path = .ok p)
    (hkey : key source path = key source' path') :
    ((new v settings capacity).step (.compile source path)).compileCached source' path' =
      .ok p := by
  have hcompile : (new v settings capacity).compile source path = .ok p := hp
  have hnone : Keyed.get? (key source path) (new v settings capacity).issues = none := rfl
  have hissue : (new v settings capacity).issue source path = .ok (⟨0, p⟩,
      { new v settings capacity with next := 1 }.keep (key source path) ⟨0, p⟩) := by
    simp only [Engine.issue, hnone, hcompile]
    rfl
  have hget : Keyed.get? (key source' path') [(key source path, (⟨0, p⟩ : Issue σ))] =
      some ⟨0, p⟩ := by
    rw [Keyed.get?, if_pos (beq_iff_eq.2 hkey.symm)]
  rw [step, hissue, keep_of_empty hcapacity rfl]
  exact compileCached_of_get? ⟨0, p⟩ hget

/-- **Kept programs are as good as compiled ones exactly when no two templates share a
key.** Over all runs of compiling, clearing and rendering, an engine hands out for each
template what compiling it gives, if and only if it keeps nothing or the templates asked
for are told apart by their keys, unless they do not compile. -/
theorem compileCached_eq_compile_iff (v : Vocabulary σ) (settings : Settings) (capacity : Nat)
    (asked : String → Option String → Prop) :
    (∀ requests : List (Request σ), (∀ r ∈ requests, ∀ t ∈ r.template?, asked t.1 t.2) →
      ∀ source path, asked source path →
        ((new v settings capacity).after requests).compileCached source path =
          ((new v settings capacity).after requests).compile source path) ↔
      capacity = 0 ∨ TellsApart v asked := by
  constructor
  · intro h
    by_cases hzero : capacity = 0
    · exact .inl hzero
    · refine .inr fun source path source' path' p hasked hasked' hkey hp => ?_
      have hfirst : ∀ r ∈ [(.compile source path : Request σ)],
          ∀ t ∈ r.template?, asked t.1 t.2 := by
        rintro _ (_ | ⟨_, ⟨⟩⟩) _ ⟨⟩
        exact hasked
      have hsecond := h [.compile source path] hfirst source' path' hasked'
      have hkeeps := (keeps_new v settings capacity asked).after hfirst
      rw [compile, hkeeps.sameVocabulary, after, List.foldl_cons, List.foldl_nil,
        compileCached_of_key_eq hzero hp hkey] at hsecond
      obtain ⟨hsource, hpath⟩ := Program.template_of_compileAt hp
      obtain ⟨hsource', hpath'⟩ := Program.template_of_compileAt hsecond.symm
      exact ⟨hsource.symm.trans hsource', hpath.symm.trans hpath'⟩
  · intro hkeys requests hasked source path ht
    have hkeeps := (keeps_new v settings capacity asked).after hasked
    rw [hkeeps.compileCached_eq hkeys ht, compile, hkeeps.sameVocabulary]

/-- An absent path and an empty one share a key: the program that comes back for the one
is that of the other. -/
theorem compileCached_ne_compile_empty :
    let e : Engine Unit := (new Vocabulary.empty {} 1024).after [.compile "x" none]
    e.compileCached "x" (some "") ≠ e.compile "x" (some "") := by
  intro e h
  have hpath : (e.compileCached "x" (some "")).toOption.map Program.path = some none := by
    decide +kernel
  rw [h] at hpath
  exact absurd hpath (by decide +kernel)

end Engine

end TagTemplate
