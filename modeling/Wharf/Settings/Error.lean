import Wharf.Numeric.Shortest

/-!
# Errors in settings

Everything that can be wrong with a configuration, and the wording of it.
-/

namespace Wharf

/-- What is wrong with a configuration. -/
inductive SettingsError
  /-- The text is not a document. -/
  | malformed
  /-- The document does not have the fields that are expected. -/
  | misshapen
  | unnamedConsumable
  | invalidAmount (amount : Binary64) (consumable : String)
  | emptyConsumable (consumable : String)
  | unnamedService
  | serviceWithoutConnections (service : String)
  | computeExpected
  | serviceExpected
  | unnamedNode
  | noTemporaryDirectory (node : String)
  | unnamedCore
  | unnamedImplementation (core : String)
  /-- Any other fault, in words. -/
  | other (text : String)
  deriving DecidableEq

/-- The text of an error. -/
def SettingsError.message : SettingsError → String
  | malformed => "The text is not a valid document"
  | misshapen => "The document does not have the expected fields"
  | unnamedConsumable => "Consumable name cannot be empty"
  | invalidAmount amount consumable =>
    "Invalid amount " ++ amount.toText ++ " of consumable '" ++ consumable ++ "'"
  | emptyConsumable consumable => "Consumable '" ++ consumable ++ "' is empty"
  | unnamedService => "Service name cannot be empty"
  | serviceWithoutConnections service =>
    "Service '" ++ service ++ "' does not accept any connection"
  | computeExpected => "Expected a compute description, found a service"
  | serviceExpected => "Expected a service description, found a compute one"
  | unnamedNode => "Node name cannot be empty"
  | noTemporaryDirectory node => "Node '" ++ node ++ "' has no temporary directory"
  | unnamedCore => "Core signature cannot be empty"
  | unnamedImplementation core => "Implementation of core '" ++ core ++ "' has an empty signature"
  | other text => text

end Wharf
