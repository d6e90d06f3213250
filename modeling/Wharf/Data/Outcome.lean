import Wharf.Files.Path

/-!
# Outcomes of transfers

How the request for an item ends: with the place where it now is, or with an error. All who wait for
one transfer get the same outcome.
-/

namespace Wharf

/-- Where an item ended up. -/
inductive Target
  | path (path : Path)
  /-- A value in the memory of the target node. -/
  | object (name : String)
  /-- A key of the persistent store. -/
  | key (key : String)
  deriving DecidableEq

/-- The text of a target. -/
def Target.toText : Target → String
  | .path p => p.text
  | .object name => "object:" ++ name
  | .key k => "key:" ++ k

/-- Why an item did not get to its target. -/
inductive TransferError
  /-- No way to get the item was left. -/
  | exhausted (item : String) (target : String)
  /-- None of the hosts of the target could be served. -/
  | noReachableHost (item : String)
  | serialization (item : String) (reason : String)
  | failed (item : String) (reason : String)
  deriving DecidableEq

/-- The text of an error. -/
def TransferError.message : TransferError → String
  | exhausted item target => "Data " ++ item ++ " cannot be obtained for " ++ target
  | noReachableHost item => "No reachable host to send data " ++ item ++ " to"
  | serialization item reason => "Serialization of data " ++ item ++ " failed: " ++ reason
  | failed item reason => "Transfer of data " ++ item ++ " failed: " ++ reason

/-- The end of a transfer. -/
abbrev Outcome := Except TransferError Target

instance decidableEqExcept {ε α : Type} [DecidableEq ε] [DecidableEq α] :
    DecidableEq (Except ε α)
  | .ok a, .ok b => decidable_of_iff (a = b) ⟨congrArg Except.ok, Except.ok.inj⟩
  | .error a, .error b => decidable_of_iff (a = b) ⟨congrArg Except.error, Except.error.inj⟩
  | .ok _, .error _ => isFalse nofun
  | .error _, .ok _ => isFalse nofun

end Wharf
