import TagTemplate.Json.Record

/-! Containers: all that a run renders besides its text.

Structured parts stay JSON values, so that any payload fits. A container is read
from a record in which every field may be missing; natives change one by edits,
which append to a list or set a single part. -/
namespace TagTemplate

/-- A file that goes with a response. -/
structure Attachment where
  name : String
  description : Option String := none
  data : List UInt8 := []
  deriving DecidableEq

/-- What is rendered. -/
structure Container where
  content : Option String := none
  embeds : List Json := []
  components : List Json := []
  stickers : List String := []
  files : List Attachment := []
  modal : Option Json := none
  poll : Option Json := none
  username : Option String := none
  threadName : Option String := none
  deriving DecidableEq

namespace Attachment

/-- The names of the fields in declaration order. -/
def fieldNames : List String := ["name", "description", "data"]

/-- The octet that a document is. -/
def octet? (d : Document) : Option UInt8 :=
  (d.word?).bind fun n => if n < 256 then some (UInt8.ofNat n) else none

/-- The attachment that a record describes. The name is needed; the description
may be missing from an object but not from an array. -/
def ofDocument? (d : Document) : Option Attachment := do
  let r ← d.record? fieldNames
  let name ← r.get? 0 Document.string? none
  let description ← r.get? 1 (Document.option? Document.string?)
    (if r.positional then none else some none)
  let data ← r.get? 2 (Document.list? octet?) (some [])
  return ⟨name, description, data⟩

/-- The record of an attachment. -/
def toDocument (a : Attachment) : Document :=
  .record [
    ("name", .text a.name),
    ("description", .text? a.description),
    ("data", .array (a.data.map fun b => .nat b.toNat))]

end Attachment

namespace Container

/-- The names of the fields in declaration order. -/
def fieldNames : List String :=
  ["content", "embeds", "components", "stickers", "files", "modal", "poll", "username",
    "thread_name"]

/-- The container that a record describes. -/
def ofDocument? (d : Document) : Option Container := do
  let r ← d.record? fieldNames
  let text := Document.option? Document.string?
  let content ← r.get? 0 text (some none)
  let embeds ← r.get? 1 (Document.list? Document.value?) (some [])
  let components ← r.get? 2 (Document.list? Document.value?) (some [])
  let stickers ← r.get? 3 (Document.list? Document.string?) (some [])
  let files ← r.get? 4 (Document.list? Attachment.ofDocument?) (some [])
  let modal ← r.get? 5 (Document.option? Document.value?) (some none)
  let poll ← r.get? 6 (Document.option? Document.value?) (some none)
  let username ← r.get? 7 text (some none)
  let threadName ← r.get? 8 text (some none)
  return { content, embeds, components, stickers, files, modal, poll, username, threadName }

/-- The record of a container. -/
def toDocument (c : Container) : Document :=
  .record [
    ("content", .text? c.content),
    ("embeds", .array (c.embeds.map .ofJson)),
    ("components", .array (c.components.map .ofJson)),
    ("stickers", .texts c.stickers),
    ("files", .array (c.files.map Attachment.toDocument)),
    ("modal", ((c.modal.map Document.ofJson).getD .null)),
    ("poll", ((c.poll.map Document.ofJson).getD .null)),
    ("username", .text? c.username),
    ("thread_name", .text? c.threadName)]

/-- Whether nothing would be sent; a name alone is nothing. -/
def isEmpty (c : Container) : Bool :=
  (c.content.getD "").isEmpty && c.embeds.isEmpty && c.components.isEmpty && c.stickers.isEmpty &&
    c.files.isEmpty && c.modal.isNone && c.poll.isNone

/-- The parts of a container that hold elements. -/
inductive Part where
  | embeds
  | components
  | stickers
  | files
  | modal
  | poll
  | username
  | threadName
  deriving DecidableEq, Repr

/-- One change that a native makes to a container. -/
inductive Edit where
  | embed (value : Json)
  | component (value : Json)
  | sticker (id : String)
  | file (attachment : Attachment)
  | modal (value : Json)
  | poll (value : Json)
  | username (name : String)
  | threadName (name : String)
  | content (text : String)
  deriving DecidableEq

/-- A container after an edit. -/
def edit (c : Container) : Edit → Container
  | .embed v => { c with embeds := c.embeds ++ [v] }
  | .component v => { c with components := c.components ++ [v] }
  | .sticker id => { c with stickers := c.stickers ++ [id] }
  | .file a => { c with files := c.files ++ [a] }
  | .modal v => { c with modal := some v }
  | .poll v => { c with poll := some v }
  | .username name => { c with username := some name }
  | .threadName name => { c with threadName := some name }
  | .content text => { c with content := some text }

/-- The edit that puts a value into the part of a name. -/
def Edit.ofPart? (part : String) (value : Json) : Option Edit :=
  match part with
  | "embeds" => some (.embed value)
  | "components" => some (.component value)
  | "stickers" => value.text?.map .sticker
  | "files" => (Attachment.ofDocument? (.ofJson value)).map .file
  | "modal" => some (.modal value)
  | "poll" => some (.poll value)
  | "username" => value.text?.map .username
  | "thread_name" => value.text?.map .threadName
  | "content" => value.text?.map .content
  | _ => none

end Container

end TagTemplate
