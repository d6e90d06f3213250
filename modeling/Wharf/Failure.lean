import Wharf.Files.Basic
import Wharf.Settings.Error

/-!
# Failures

What an operation can fail with, by its origin. `Failure.message` is the text that a reader gets.
-/

namespace Wharf

/-- Why an operation failed. -/
inductive Failure
  | file (cause : FileError)
  /-- A value could not be written out. -/
  | serialization (text : String)
  | settings (cause : SettingsError)
  /-- A node refused a transfer. -/
  | transfer (text : String)
  | other (text : String)
  deriving DecidableEq

/-- The text of a failure. -/
def Failure.message : Failure → String
  | file cause => "IO error: " ++ cause.message
  | serialization text => "Serialization error: " ++ text
  | settings cause => "Configuration error: " ++ cause.message
  | transfer text => "Transfer error: " ++ text
  | other text => "Error: " ++ text

end Wharf
