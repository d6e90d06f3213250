import Wharf.Description
import Wharf.Settings.Error
import Wharf.Tree

/-!
# Descriptions in settings

How a configuration declares a resource, or what an implementation needs: the amounts are plain
numbers by name.

* `DescriptionSettings.ofTree?` reads a declaration, `ofFields?` one among the fields of something
  else.
* `DescriptionSettings.check` says what is wrong with one. A demand may be zero, a capacity may not.
* `DescriptionSettings.toDescription` converts one; the names of its consumables are registered only
  when all amounts can be converted.
-/

namespace Wharf

/-- A resource as a configuration declares it. -/
inductive DescriptionSettings
  /-- The amounts are listed by ascending name. -/
  | compute (consumables : List (String × Binary64)) (architecture : Option String)
      (features : List String)
  | service (name realm port : String) (connections : UInt32)
  deriving DecidableEq

/-- Adds a named number to a list by ascending name, over one of the same name. -/
def insertByName (name : String) (x : Binary64) :
    List (String × Binary64) → List (String × Binary64)
  | [] => [(name, x)]
  | (other, y) :: rest =>
    if name = other then (name, x) :: rest
    else if name < other then (name, x) :: (other, y) :: rest
    else (other, y) :: insertByName name x rest

namespace DescriptionSettings

/-! ## Reading -/

/-- Reads the fields of a declaration of a kind. -/
def ofKind? (kind : ResourceKind) (fields : Fields) : Option DescriptionSettings :=
  match kind with
  | .compute => do
    let consumables ← fields.optional "consumables" Tree.numbers? []
    let architecture ← fields.optional "architecture" Tree.optionalText? none
    let features ← fields.optional "features" Tree.texts? []
    let sorted := consumables.foldl (fun sorted entry => insertByName entry.1 entry.2 sorted) []
    some (.compute sorted architecture features)
  | .service => do
    let name ← fields.required "name" Tree.text?
    let realm ← fields.required "namespace" Tree.text?
    let port ← fields.required "port" Tree.text?
    let connections ← fields.optional "connections" Tree.word? 1
    some (.service name realm port connections)

/-- The kind that is given by its name. -/
def namedKind? (t : Tree) : Option ResourceKind := t.text?.bind ResourceKind.ofName?

/-- The kind that is given by its name, or by its number if the dialect has it so. -/
def kindIn? (dialect : Dialect) : Tree → Option ResourceKind
  | .integer (.ofNat n) => if dialect.numberedKinds then ResourceKind.all[n]? else none
  | t => namedKind? t

/-- Reads a declaration that stands among the `outer` fields of a table. Other fields do not matter,
but all numbers have to fit 64 bits. -/
def ofFields? (dialect : Dialect) (outer : List String) (fields : Fields) :
    Option DescriptionSettings :=
  if fields.othersFit outer .word64 then
    (fields.required "kind" (kindIn? dialect)).bind fun kind => ofKind? kind fields
  else none

/-- The order of the fields of a kind. -/
def fieldOrder : ResourceKind → List String
  | .compute => ["consumables", "architecture", "features"]
  | .service => ["name", "namespace", "port", "connections"]

/-- Reads a declaration: a table, or a list with the kind in front and the fields in order. -/
def ofTree? : Tree → Option DescriptionSettings
  | .table fields =>
    (Fields.required fields "kind" namedKind?).bind fun kind => ofKind? kind fields
  | .list (first :: items) => do
    let kind ← namedKind? first
    let fields ← Fields.ofPositions false (fieldOrder kind) items
    ofKind? kind fields
  | _ => none

/-! ## Checking -/

/-- The kind of resource that is declared. -/
def kind : DescriptionSettings → ResourceKind
  | compute .. => .compute
  | service .. => .service

/-- Checks one amount. -/
def checkAmount (allowZero : Bool) (name : String) (x : Binary64) : Except SettingsError Unit :=
  if name = "" then .error .unnamedConsumable
  else match Amount.ofBinary64? x with
    | none => .error (.invalidAmount x name)
    | some amount =>
      if amount.isZero && !allowZero then .error (.emptyConsumable name) else .ok ()

/-- Checks a declaration; the first fault counts. -/
def check (allowZero : Bool) : DescriptionSettings → Except SettingsError Unit
  | compute consumables _ _ => consumables.forM fun entry => checkAmount allowZero entry.1 entry.2
  | service name _ _ connections =>
    if name = "" then .error .unnamedService
    else if connections = 0 && !allowZero then .error (.serviceWithoutConnections name)
    else .ok ()

/-! ## Converting -/

/-- Converts the amounts; the first one that cannot be converted is the fault. -/
def convertAmounts : List (String × Binary64) → Except SettingsError (List (String × Amount))
  | [] => .ok []
  | (name, x) :: rest =>
    match Amount.ofBinary64? x with
    | none => .error (.invalidAmount x name)
    | some amount => (convertAmounts rest).map fun amounts => (name, amount) :: amounts

/-- Converts a declared compute resource, and registers the names of its consumables. -/
def toCompute (names : NameTable) :
    DescriptionSettings → Except SettingsError ComputeDescription × NameTable
  | compute consumables architecture features =>
    match convertAmounts consumables with
    | .error e => (.error e, names)
    | .ok amounts =>
      let (vector, names) := names.vector amounts
      (.ok ⟨vector, architecture, .ofList features⟩, names)
  | service .. => (.error .computeExpected, names)

/-- Converts a declared service. -/
def toService : DescriptionSettings → Except SettingsError ServiceDescription
  | service name realm port connections =>
    .ok (.withConnections name realm port connections)
  | compute .. => .error .serviceExpected

/-- Converts a declaration of either kind. -/
def toDescription (names : NameTable) (s : DescriptionSettings) :
    Except SettingsError Description × NameTable :=
  match s.kind with
  | .compute =>
    let (converted, names) := s.toCompute names
    (converted.map .compute, names)
  | .service => (s.toService.map .service, names)

end DescriptionSettings

end Wharf
