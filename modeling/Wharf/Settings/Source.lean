import Wharf.Failure
import Wharf.Settings.Catalog
import Wharf.Settings.Node
import Wharf.Toml.Document

/-!
# Settings from texts and files

Settings are written as TOML. A text has to be a document, the document has to have the expected
fields, and the settings have to pass their check; the first of these that fails is the error. A
document with a number out of range may pass where the number does not matter, and otherwise counts
as none.

* `NodeSettings.ofText` and `CatalogSettings.ofText` read a text.
* `textOf` takes the bytes of a file for a text, `NodeSettings.ofFile` reads a node from them.
-/

namespace Wharf

/-- Reads a text as a document, the document as settings, and checks these. -/
def settingsOfText {α : Type} (read : Tree → Option α) (check : α → Except SettingsError Unit)
    (text : String) : Except SettingsError α :=
  match Toml.parse? text with
  | none => .error .malformed
  | some document =>
    match read document with
    | none => .error (if document.fits .signed64 then .misshapen else .malformed)
    | some settings => (check settings).map fun _ => settings

/-- The settings of a node. -/
def NodeSettings.ofText (text : String) : Except SettingsError NodeSettings :=
  settingsOfText NodeSettings.ofTree? NodeSettings.check text

/-- The settings of a catalog. -/
def CatalogSettings.ofText (text : String) : Except SettingsError CatalogSettings :=
  settingsOfText (CatalogSettings.ofTree? .toml) CatalogSettings.check text

/-- The text that the bytes of a file encode. -/
def textOf (bytes : List UInt8) : Except FileError String :=
  match String.fromUTF8? (ByteArray.mk bytes.toArray) with
  | some text => .ok text
  | none => .error .notText

/-- The settings of a node in a file, or why the file could not be read. -/
def NodeSettings.ofFile (content : Except FileError (List UInt8)) : Except Failure NodeSettings :=
  match content with
  | .error e => .error (.file e)
  | .ok bytes =>
    match textOf bytes with
    | .error e => .error (.file e)
    | .ok text => (NodeSettings.ofText text).mapError .settings

end Wharf
