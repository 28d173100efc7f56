import TagTemplate.Json.Reader
import TagTemplate.Json.Record
import TagTemplate.Native.Signature

/-! Settings of a run.

Settings are read from a record whose missing fields take their defaults, or from
environment variables that override the defaults one by one; a variable that
does not parse is as good as absent. Settings from a file are also checked: a
deadline of zero would abandon every element. -/
namespace TagTemplate

/-- Lists of those who may trigger a run; an empty list admits everyone. -/
structure Restrictions where
  userIds : List String := []
  guildIds : List String := []
  deriving DecidableEq, Repr

/-- What a run may do. -/
structure Settings where
  /-- Whether produced values that contain tags are expanded again. -/
  expand : Bool := true
  /-- The depth at which values are kept as they are. -/
  maxDepth : Nat := 5
  /-- Whether a failure may set off a replay of the whole template. -/
  replay : Bool := true
  /-- Parts of function names whose failures set off a replay. -/
  replayNames : List String :=
    ["json", "object", "array", "variable", "get", "let", "eval", "execute", "parse", "format",
      "template"]
  /-- How many replays a run may make. -/
  maxReplays : Nat := 3
  /-- How long the expansion of one container element may take, in milliseconds. -/
  elementTimeout : Nat := 5000
  restrictions : Option Restrictions := none
  deriving DecidableEq, Repr

namespace Restrictions

def ofDocument? (d : Document) : Option Restrictions := do
  let r ← d.record? ["user_ids", "guild_ids"]
  let userIds ← r.get? 0 (Document.list? Document.string?) (some [])
  let guildIds ← r.get? 1 (Document.list? Document.string?) (some [])
  return ⟨userIds, guildIds⟩

def toDocument (r : Restrictions) : Document :=
  .record [("user_ids", .texts r.userIds), ("guild_ids", .texts r.guildIds)]

end Restrictions

/-- Why settings could not be had. -/
inductive SettingsError where
  /-- There is no such file. -/
  | missing
  /-- The text is no record of settings. -/
  | malformed
  /-- The deadline is zero. -/
  | zeroTimeout
  deriving DecidableEq, Repr

def SettingsError.message : SettingsError → String
  | .missing => "The settings file cannot be read"
  | .malformed => "The settings file holds no settings"
  | .zeroTimeout => "Configuration error: element_timeout_ms must be greater than zero"

namespace Settings

/-- The names of the fields in declaration order. -/
def fieldNames : List String :=
  ["reprocess_enabled", "max_reprocess_depth", "recovery_enabled", "recovery_functions",
    "max_recovery_attempts", "element_timeout_ms", "restrictions"]

def ofDocument? (d : Document) : Option Settings := do
  let r ← d.record? fieldNames
  let s : Settings := {}
  let expand ← r.get? 0 Document.bool? (some s.expand)
  let maxDepth ← r.get? 1 Document.word? (some s.maxDepth)
  let replay ← r.get? 2 Document.bool? (some s.replay)
  let replayNames ← r.get? 3 (Document.list? Document.string?) (some s.replayNames)
  let maxReplays ← r.get? 4 Document.word? (some s.maxReplays)
  let elementTimeout ← r.get? 5 Document.word? (some s.elementTimeout)
  let restrictions ← r.get? 6 (Document.option? Restrictions.ofDocument?) (some s.restrictions)
  return { expand, maxDepth, replay, replayNames, maxReplays, elementTimeout, restrictions }

def toDocument (s : Settings) : Document :=
  .record [
    ("reprocess_enabled", .bool s.expand),
    ("max_reprocess_depth", .nat s.maxDepth),
    ("recovery_enabled", .bool s.replay),
    ("recovery_functions", .texts s.replayNames),
    ("max_recovery_attempts", .nat s.maxReplays),
    ("element_timeout_ms", .nat s.elementTimeout),
    ("restrictions", ((s.restrictions.map Restrictions.toDocument).getD .null))]

/-- Whether the settings make sense: the deadline is not zero. -/
def isValid (s : Settings) : Bool := s.elementTimeout != 0

/-- The settings in a file whose text, if it exists, is given. -/
def load (text : Option String) : Except SettingsError Settings :=
  match text with
  | none => .error .missing
  | some text =>
    match (Document.read text).bind ofDocument? with
    | none => .error .malformed
    | some s => if s.isValid then .ok s else .error .zeroTimeout

/-- The truth value a variable spells. -/
def flag? (value : String) : Option Bool :=
  let word := Text.lowerAscii (Text.trim value)
  if ["1", "true", "yes", "on"].contains word then some true
  else if ["0", "false", "no", "off"].contains word then some false
  else none

/-- The natural of 64 bits that a text spells: digits after an optional plus. -/
def word? (s : String) : Option Nat :=
  let digits :=
    match s.toList with
    | '+' :: digits => digits
    | digits => digits
  let n := Number.digitsValue digits
  if !digits.isEmpty && digits.all Char.isDigit && n < Nat.pow 2 64 then some n else none

/-- The environment variables that settings are read from. -/
def variableNames : List String :=
  ["FORGE_REPROCESS", "FORGE_MAX_REPROCESS_DEPTH", "FORGE_RECOVERY", "FORGE_MAX_RECOVERY_ATTEMPTS",
    "FORGE_ELEMENT_TIMEOUT_MS"]

/-- The settings that environment variables ask for. -/
def ofEnvironment (get? : String → Option String) : Settings :=
  let s : Settings := {}
  let flag (name : String) (default : Bool) := ((get? name).bind flag?).getD default
  let word (name : String) (default : Nat) :=
    ((get? name).bind fun value => word? (Text.trim value)).getD default
  { s with
    expand := flag "FORGE_REPROCESS" s.expand
    maxDepth := word "FORGE_MAX_REPROCESS_DEPTH" s.maxDepth
    replay := flag "FORGE_RECOVERY" s.replay
    maxReplays := word "FORGE_MAX_RECOVERY_ATTEMPTS" s.maxReplays
    elementTimeout := word "FORGE_ELEMENT_TIMEOUT_MS" s.elementTimeout }

/-- Whether a character list occurs in another without a gap. -/
def occursIn (part : List Char) : List Char → Bool
  | [] => part.isEmpty
  | c :: cs => part.isPrefixOf (c :: cs) || occursIn part cs

/-- Whether a failure of a function sets off a replay whatever its value: its
name, without leading dollar signs, contains one of the given parts. -/
def needsReplay (s : Settings) (name : String) : Bool :=
  let name := Text.lower (bareName name)
  !name.isEmpty && s.replayNames.any fun part => occursIn (Text.lower part).toList name.toList

end Settings

end TagTemplate
