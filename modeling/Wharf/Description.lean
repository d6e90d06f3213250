import Wharf.Consumables.NameTable

/-!
# Descriptions of resources and demands

What a resource is and offers. An implementation says in the same shape what it needs, so one type
serves both.

* `Features` are sorted sets of texts.
* `Description` is a compute resource or a service; `Description.accepts` is the static match of an
  offer with a demand, everything but the amounts.
* `Description.describe` writes one in a line.
-/

namespace Wharf

/-! ## Features -/

/-- Inserts a text into an ascending list, unless it is there. -/
def insertAscending (feature : String) : List String → List String
  | [] => [feature]
  | other :: rest =>
    if feature = other then other :: rest
    else if feature < other then feature :: other :: rest
    else other :: insertAscending feature rest

/-- A set of features, listed in ascending order of their bytes. Code points are in that order
too. -/
structure Features where
  names : List String
  deriving DecidableEq, Inhabited

namespace Features

/-- No features. -/
def none : Features := ⟨[]⟩

/-- Adds a feature. -/
def insert (fs : Features) (feature : String) : Features := ⟨insertAscending feature fs.names⟩

/-- The set of the features of a list. -/
def ofList (features : List String) : Features := features.foldl insert none

/-- Whether a feature is there. -/
def has (fs : Features) (feature : String) : Bool := fs.names.contains feature

/-- Whether all features of `wanted` are there. -/
def includes (fs wanted : Features) : Bool := wanted.names.all fs.has

end Features

/-! ## Descriptions -/

/-- The two kinds of resources. -/
inductive ResourceKind
  /-- Runs implementations itself. -/
  | compute
  /-- Is reached over the network. -/
  | service
  deriving DecidableEq

namespace ResourceKind

/-- The kinds in order. -/
def all : List ResourceKind := [compute, service]

/-- The name of a kind. -/
def name : ResourceKind → String
  | compute => "compute"
  | service => "service"

/-- The kind of a name. -/
def ofName? (text : String) : Option ResourceKind := all.find? fun kind => kind.name == text

end ResourceKind

/-- A resource that runs implementations: its consumables and static properties. -/
structure ComputeDescription where
  consumables : Consumables
  architecture : Option String
  features : Features
  deriving DecidableEq

/-- A service endpoint. Its only consumable is the number of simultaneous connections. -/
structure ServiceDescription where
  name : String
  realm : String
  port : String
  consumables : Consumables
  deriving DecidableEq

/-- A resource, as an offer or as a demand. -/
inductive Description
  | compute (d : ComputeDescription)
  | service (d : ServiceDescription)
  deriving DecidableEq

/-- The endpoint with so many connections. -/
def ServiceDescription.withConnections (name realm port : String) (connections : UInt32) :
    ServiceDescription :=
  ⟨name, realm, port, Consumables.empty.set NameTable.connections (.ofUnits connections)⟩

/-- An offer has the architecture that is asked for, if one is, and all features. -/
def ComputeDescription.accepts (offer wanted : ComputeDescription) : Bool :=
  (match wanted.architecture with
    | none => true
    | some architecture => offer.architecture == some architecture)
  && offer.features.includes wanted.features

/-- An offer is the very endpoint that is asked for. -/
def ServiceDescription.accepts (offer wanted : ServiceDescription) : Bool :=
  offer.name == wanted.name && offer.realm == wanted.realm && offer.port == wanted.port

namespace Description

/-- The kind of the resource. -/
def kind : Description → ResourceKind
  | compute _ => .compute
  | service _ => .service

/-- The amounts offered or demanded. -/
def consumables : Description → Consumables
  | compute d => d.consumables
  | service d => d.consumables

/-- Whether an offer matches a demand in everything but the amounts. -/
def accepts : Description → Description → Bool
  | compute offer, compute wanted => offer.accepts wanted
  | service offer, service wanted => offer.accepts wanted
  | _, _ => false

/-- One line that says what the resource is. -/
def describe (names : NameTable) : Description → String
  | compute d =>
    "compute[" ++ names.write d.consumables ++ "]"
      ++ (match d.architecture with
        | none => ""
        | some architecture => " arch=" ++ architecture)
      ++ (if d.features.names.isEmpty then ""
        else " features=" ++ Text.joined d.features.names)
  | service d =>
    "service[" ++ d.realm ++ "/" ++ d.name ++ ":" ++ d.port ++ "; "
      ++ names.write d.consumables ++ "]"

end Description

end Wharf
