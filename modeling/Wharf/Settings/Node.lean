import Wharf.Files.Path
import Wharf.Settings.Description

/-!
# Nodes in settings

The configuration of one node: who it is, where it puts files, and the resource that it offers.

* `NodeSettings.ofTree?` reads one, `NodeSettings.check` says what is wrong with one.
-/

namespace Wharf

/-- What a node does when a value cannot be written to its target. -/
inductive FailurePolicy
  /-- The failure is the answer. -/
  | authoritative
  /-- The other ways to get the data are tried. -/
  | fallThrough
  deriving DecidableEq

namespace FailurePolicy

/-- The name of a policy in a configuration. -/
def name : FailurePolicy → String
  | authoritative => "authoritative"
  | fallThrough => "fall-through"

/-- The policy of a name. -/
def ofName? (text : String) : Option FailurePolicy :=
  [authoritative, fallThrough].find? fun policy => policy.name == text

/-- Reads a policy: its name, or a table with nothing but the name and nothing under it. -/
def ofTree? : Tree → Option FailurePolicy
  | .text text => ofName? text
  | .table [(text, .table [])] => ofName? text
  | .table [(text, .list [])] => ofName? text
  | _ => none

end FailurePolicy

/-- The resource of a node. -/
structure ResourceSettings where
  slots : UInt32
  description : DescriptionSettings
  deriving DecidableEq

/-- Reads a resource: its slots stand among the fields of its description. -/
def ResourceSettings.ofTree? (t : Tree) : Option ResourceSettings := do
  let fields ← t.table?
  let slots ← Fields.required fields "max_slots" Tree.word?
  let description ← DescriptionSettings.ofFields? .toml ["max_slots"] fields
  some ⟨slots, description⟩

/-- The configuration of a node. -/
structure NodeSettings where
  name : String
  id : UInt32
  temporary : Path
  policy : FailurePolicy
  resource : ResourceSettings
  deriving DecidableEq

namespace NodeSettings

/-- The fields of a node, in order. -/
def fieldNames : List String :=
  ["name", "node_id", "temp_dir", "memory_failure_policy", "resources"]

/-- Reads a node. -/
def ofTree? (t : Tree) : Option NodeSettings := do
  let fields ← t.fieldsOf? .toml fieldNames
  let name ← fields.required "name" Tree.text?
  let id ← fields.required "node_id" Tree.word?
  let temporary ← fields.required "temp_dir" Tree.text?
  let policy ← fields.optional "memory_failure_policy" FailurePolicy.ofTree? .authoritative
  let resource ← fields.required "resources" ResourceSettings.ofTree?
  some ⟨name, id, ⟨temporary⟩, policy, resource⟩

/-- Checks a node; the first fault counts. -/
def check (s : NodeSettings) : Except SettingsError Unit :=
  if s.name = "" then .error .unnamedNode
  else if s.temporary.text = "" then .error (.noTemporaryDirectory s.name)
  else s.resource.description.check false

end NodeSettings

end Wharf
