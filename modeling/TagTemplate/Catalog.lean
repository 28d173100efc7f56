import TagTemplate.Settings
import TagTemplate.Vocabulary

/-! The catalog: natives registered before templates are compiled.

A catalog remembers all registered natives in order. A snapshot is the vocabulary
of the natives registered so far; later registrations do not change it. -/
namespace TagTemplate

/-- Registered natives, the vocabulary they make up, and the settings that new
engines take. -/
structure Catalog (σ : Type) where
  natives : List (Native σ) := []
  snapshot : Vocabulary σ := Vocabulary.empty
  settings : Settings := {}

namespace Catalog
variable {σ : Type}

/-- A catalog that holds exactly some natives. -/
def setNatives (c : Catalog σ) (natives : List (Native σ)) : Catalog σ :=
  { c with natives, snapshot := Vocabulary.ofNatives natives }

/-- A catalog with more natives; they win over earlier ones of the same name. -/
def register (c : Catalog σ) (natives : List (Native σ)) : Catalog σ :=
  c.setNatives (c.natives ++ natives)

end Catalog

end TagTemplate
