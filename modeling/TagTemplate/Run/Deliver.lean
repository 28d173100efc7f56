import TagTemplate.Run.Expand

/-! Delivery.

The text of a run becomes the content of the container. Then the parts of the
container are expanded one after the other, element by element, each element
under a deadline of its own: embeds in full, components and modals and polls in
the texts that are shown, attachments in their names. While a part is expanded
its elements are taken out, and the expanded ones are put in the place of
whatever stands there at the end. Last the container is sent. -/
namespace TagTemplate.Run
variable {σ : Type}

/-- The keys of a component under which texts are expanded. -/
def componentKeys : List String := ["label", "placeholder", "custom_id", "url", "value"]

/-- The keys of an option under which texts are expanded. -/
def optionKeys : List String := ["label", "description", "value"]

/-- The keys of a modal under which texts are expanded. -/
def modalKeys : List String := ["title", "custom_id"]

/-- Expands the strings that stand under some keys of some entries. -/
def expandEntries (expand : Json → Run σ Json) (keys : List String) :
    List (String × Json) → Run σ (List (String × Json))
  | [] => pure []
  | (k, v) :: rest => do
    let v ← if keys.contains k && v.text?.isSome then expand v else pure v
    let rest ← expandEntries expand keys rest
    return (k, v) :: rest

/-- Expands the strings that stand under some keys of an object. -/
def expandKeys (expand : Json → Run σ Json) (keys : List String) : Json → Run σ Json
  | .object entries => do return .object (← expandEntries expand keys entries)
  | v => pure v

mutual

/-- Expands the texts of a component, or of an array of components. -/
def expandComponent (expand : Json → Run σ Json) : Json → Run σ Json
  | .array items => do return .array (← expandComponents expand items)
  | .object entries => do return .object (← expandComponentEntries expand entries)
  | v => pure v

/-- Expands the texts of some components. -/
def expandComponents (expand : Json → Run σ Json) : List Json → Run σ (List Json)
  | [] => pure []
  | v :: vs => do
    let v ← expandComponent expand v
    let vs ← expandComponents expand vs
    return v :: vs

/-- Expands the texts in the entries of a component. -/
def expandComponentEntries (expand : Json → Run σ Json) :
    List (String × Json) → Run σ (List (String × Json))
  | [] => pure []
  | (k, .array items) :: rest => do
    let items ←
      if k == "components" then expandComponents expand items
      else if k == "options" then Timed.each (expandKeys expand optionKeys) items
      else pure items
    let rest ← expandComponentEntries expand rest
    return (k, .array items) :: rest
  | (k, .string s) :: rest => do
    let v ← if componentKeys.contains k then expand (.string s) else pure (.string s)
    let rest ← expandComponentEntries expand rest
    return (k, v) :: rest
  | (k, v) :: rest => do
    let rest ← expandComponentEntries expand rest
    return (k, v) :: rest

end

/-- Changes the value under a key of some entries, if there is one. -/
def onKey (f : Json → Run σ Json) (key : String) (entries : List (String × Json)) :
    Run σ (List (String × Json)) :=
  match Keyed.get? key entries with
  | none => pure entries
  | some v => do return Keyed.insert key (← f v) entries

/-- Expands the texts of a modal and of its components. -/
def expandModal (expand : Json → Run σ Json) (modal : Json) : Run σ Json := do
  match ← expandKeys expand modalKeys modal with
  | .object entries => return .object (← onKey (expandComponent expand) "components" entries)
  | v => return v

/-- Expands the texts of the answers of a poll. -/
def expandAnswers (expand : Json → Run σ Json) : Json → Run σ Json
  | .array answers => do return .array (← Timed.each (expandKeys expand ["text"]) answers)
  | v => pure v

/-- Expands the texts of the question and the answers of a poll. -/
def expandPoll (expand : Json → Run σ Json) : Json → Run σ Json
  | .object entries => do
    let entries ← onKey (expandKeys expand ["text"]) "question" entries
    return .object (← onKey (expandAnswers expand) "answers" entries)
  | v => pure v

/-- Expands a text and shows the result as text. -/
def expandShown (expand : Json → Run σ Json) (s : String) : Run σ String := do
  return (← expand (.string s)).display

/-- Expands the name and the description of an attachment. -/
def expandAttachment (expand : Json → Run σ Json) (a : Attachment) : Run σ Attachment := do
  let name ← expandShown expand a.name
  let description ←
    match a.description with
    | none => pure none
    | some d => do pure (some (← expandShown expand d))
  return { a with name, description }

/-- Takes the elements of a part out of the container, changes each under the
deadline, and puts the list back. -/
def onPart {α : Type} (part : Container.Part) (get : Container → List α)
    (put : List α → Container → Container) (f : α → Run σ α) : Run σ Unit := do
  let c ← Timed.get
  let items := get c.session.container
  let store (event : Event) (items : List α) : Run σ Unit :=
    Timed.modify (·.onSession fun s => { s.record event with container := put items s.container })
  store (.taken part) []
  store (.stored part) (← Timed.eachWithin c.settings.elementTimeout f items)

/-- Expands the parts of the container, if the settings ask for it. Its texts count as
produced at the depth of the program that the context has now. -/
def expandContainer (expandAt : Nat → Json → Run σ Json) : Run σ Unit := do
  let c ← Timed.get
  if c.settings.expand then
    let expand := expandAt c.program.depth
    onPart .embeds (·.embeds) (fun v c => { c with embeds := v }) expand
    onPart .components (·.components) (fun v c => { c with components := v })
      (expandComponent expand)
    onPart .files (·.files) (fun v c => { c with files := v }) (expandAttachment expand)
    onPart .modal (·.modal.toList) (fun v c => { c with modal := v.head? }) (expandModal expand)
    onPart .poll (·.poll.toList) (fun v c => { c with poll := v.head? }) (expandPoll expand)
    onPart .stickers (·.stickers) (fun v c => { c with stickers := v }) (expandShown expand)
    onPart .username (·.username.toList) (fun v c => { c with username := v.head? })
      (expandShown expand)
    onPart .threadName (·.threadName.toList) (fun v c => { c with threadName := v.head? })
      (expandShown expand)
  else return ()

/-- Hands the container to the target, if there is one; an error of the target has
no further consequence. -/
def send : Run σ Unit := do
  let c ← Timed.get
  match c.target with
  | none => return ()
  | some target =>
    let container := c.session.container
    Timed.modify fun c => { c with memory := (target container c.memory).2 }
    record (.sent container)

/-- Delivers the text of a run. -/
def deliver (expandAt : Nat → Json → Run σ Json) (content : String) : Run σ Unit := do
  Timed.modify (·.onSession fun s =>
    { s with container := { s.container with content := some content } })
  expandContainer expandAt
  send

end TagTemplate.Run
