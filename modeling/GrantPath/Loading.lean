import GrantPath.Document.Config
import GrantPath.Document.Listing
import GrantPath.Toml.Text

/-! # Loading files

Configurations and listings are kept in TOML files. A file is given by its bytes, or by
nothing if there is no such file.
-/

namespace GrantPath

/-- The text of a file. -/
def fileText (content : Option ByteArray) : Except LoadError String :=
  match content.bind String.fromUTF8? with
  | some text => .ok text
  | none => .error .unreadable

/-- What a TOML text holds. -/
def readToml {α : Type} (value : Document.Reader α) (text : String) : Except LoadError α :=
  match (Toml.read? text).bind value with
  | some value => .ok value
  | none => .error .malformed

/-- The configuration in a file; it has to be usable. -/
def Config.load (content : Option ByteArray) : Except LoadError Config := do
  let config ← readToml Config.ofDocument? (← fileText content)
  match config.validate with
  | .ok () => .ok config
  | .error e => .error (.refused e)

/-- The directory that a listing in a file describes. -/
def Directory.load (content : Option ByteArray) : Except LoadError Directory := do
  let listing ← readToml Listing.ofDocument? (← fileText content)
  match Directory.ofListing listing with
  | .ok directory => .ok directory
  | .error e => .error (.refused e)

end GrantPath
