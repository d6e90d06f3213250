import Wharf.Catalog
import Wharf.Settings.Description

/-!
# Catalogs in settings

A list of cores with their implementations, as a file declares it.

* `CatalogSettings.ofTree?` reads one, `CatalogSettings.check` says what is wrong with one.
* `CatalogSettings.registerIn` registers its cores one after the other. A core that cannot be
  converted ends the registration; the cores before it stay registered.
-/

namespace Wharf

/-- An implementation as a file declares it. -/
structure ImplementationSettings where
  signature : String
  requirements : DescriptionSettings
  deriving DecidableEq

/-- A core as a file declares it. -/
structure CoreSettings where
  signature : String
  implementations : List ImplementationSettings
  deriving DecidableEq

/-- The cores of a file. -/
structure CatalogSettings where
  cores : List CoreSettings
  deriving DecidableEq

namespace ImplementationSettings

/-- Reads an implementation: its signature stands among the fields of its requirements. -/
def ofTree? (dialect : Dialect) (t : Tree) : Option ImplementationSettings := do
  let fields ← t.table?
  let signature ← Fields.required fields "signature" Tree.text?
  let requirements ← DescriptionSettings.ofFields? dialect ["signature"] fields
  some ⟨signature, requirements⟩

end ImplementationSettings

namespace CoreSettings

/-- The fields of a core, in order. -/
def fieldNames : List String := ["signature", "implementations"]

/-- Reads a core: a table, or a list of the fields in order. -/
def ofTree? (dialect : Dialect) (t : Tree) : Option CoreSettings := do
  let fields ← t.fieldsOf? dialect fieldNames
  let signature ← fields.required "signature" Tree.text?
  let implementations ← fields.optional "implementations"
    (Tree.listOf? (ImplementationSettings.ofTree? dialect)) []
  some ⟨signature, implementations⟩

/-- Checks a core and its implementations; the first fault counts. -/
def check (c : CoreSettings) : Except SettingsError Unit :=
  if c.signature = "" then .error .unnamedCore
  else c.implementations.forM fun i =>
    if i.signature = "" then .error (.unnamedImplementation c.signature)
    else i.requirements.check true

end CoreSettings

/-- Converts implementations one after the other. Names that were registered before the first
fault stay registered. -/
def ImplementationSettings.convertAll (names : NameTable) :
    List ImplementationSettings → Except SettingsError (List (String × Description)) × NameTable
  | [] => (.ok [], names)
  | i :: rest =>
    match i.requirements.toDescription names with
    | (.error e, names) => (.error e, names)
    | (.ok description, names) =>
      let (converted, names) := convertAll names rest
      (converted.map fun others => (i.signature, description) :: others, names)

namespace CatalogSettings

/-- Reads a catalog: a table, or a list of the fields in order. -/
def ofTree? (dialect : Dialect) (t : Tree) : Option CatalogSettings := do
  let fields ← t.fieldsOf? dialect ["cores"]
  let cores ← fields.optional "cores" (Tree.listOf? (CoreSettings.ofTree? dialect)) []
  some ⟨cores⟩

/-- Checks all cores; the first fault counts. -/
def check (s : CatalogSettings) : Except SettingsError Unit := s.cores.forM CoreSettings.check

/-- What a registration leaves behind, whether it got to its end or not. -/
structure Registration where
  catalog : Catalog
  names : NameTable
  /-- The ids of the cores that changed, or the fault. -/
  outcome : Except SettingsError (List Nat)

/-- Adds the ids that are not there yet. -/
def addNew (ids new : List Nat) : List Nat :=
  new.foldl (fun ids id => if ids.contains id then ids else ids ++ [id]) ids

/-- Registers cores behind those that changed already. -/
def registerCores (catalog : Catalog) (names : NameTable) (changed : List Nat) :
    List CoreSettings → Registration
  | [] => ⟨catalog, names, .ok changed⟩
  | core :: rest =>
    match ImplementationSettings.convertAll names core.implementations with
    | (.error e, names) => ⟨catalog, names, .error e⟩
    | (.ok implementations, names) =>
      let update := catalog.register core.signature implementations
      registerCores update.catalog names (addNew changed update.changed) rest

/-- Registers all cores. -/
def registerIn (s : CatalogSettings) (catalog : Catalog) (names : NameTable) : Registration :=
  registerCores catalog names [] s.cores

end CatalogSettings

end Wharf
