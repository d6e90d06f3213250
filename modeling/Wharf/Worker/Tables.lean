import Wharf.Catalog

/-!
# Capability tables

What a resource could run if it were idle, derived from its description and a catalog: for every
core the implementations that fit, how many instances of each, and how many at most.

* `simultaneous?` is the number of instances of one implementation, none when it cannot run at all.
* `Tables.build` evaluates every core of a catalog.
* `Tables.rebuild` evaluates the listed cores only and carries the others over from earlier tables.
-/

namespace Wharf

/-- The instances of an implementation that an idle resource runs at once. A demand without amounts
is bounded by the slots alone. -/
def simultaneous? (offer : Description) (ceiling : Nat) (i : Implementation) : Option Nat :=
  if offer.accepts i.requirements then
    match offer.consumables.fitCount i.requirements.consumables with
    | some fit => some (min fit ceiling)
    | none => some ceiling
  else none

/-- The table entry of one core. -/
structure CoreEntry where
  /-- The implementations that fit at least once. -/
  executable : List Implementation
  /-- For every implementation the number of instances. -/
  instances : List Nat
  /-- The largest of these numbers. -/
  ideal : Nat
  /-- The instances the slots allow. -/
  slots : Nat
  deriving DecidableEq

namespace CoreEntry

/-- The instances of every implementation. -/
def instancesOf (offer : Description) (ceiling : Nat) (implementations : List Implementation) :
    List Nat :=
  implementations.map fun i => (simultaneous? offer ceiling i).getD 0

/-- Evaluates a core. -/
def evaluate (offer : Description) (ceiling : Nat) (implementations : List Implementation) :
    CoreEntry :=
  let instances := instancesOf offer ceiling implementations
  let ideal := instances.foldl max 0
  { executable := implementations.filter fun i => 0 < (simultaneous? offer ceiling i).getD 0
    instances := instances
    ideal := ideal
    slots := min ideal ceiling }

/-- The entry of a core that has not been evaluated: nothing can run. -/
def unevaluated (ceiling : Nat) (implementations : List Implementation) : CoreEntry :=
  { executable := []
    instances := implementations.map fun _ => 0
    ideal := 0
    slots := min 0 ceiling }

end CoreEntry

/-- The capability tables of a resource for one version of the catalog. -/
structure Tables where
  version : Nat
  /-- The cores with an executable implementation. -/
  executableCores : List Nat
  /-- The entries by core id. -/
  entries : List CoreEntry
  deriving DecidableEq

/-- A core with its entry, while tables are put together. -/
structure Row where
  core : Nat
  entry : CoreEntry
  isExecutable : Bool

namespace Row

/-- The row of an entry that has just been made. -/
def fresh (core : Core) (entry : CoreEntry) : Row := ⟨core.id, entry, !entry.executable.isEmpty⟩

/-- The row of a core that is evaluated. -/
def evaluate (offer : Description) (ceiling : Nat) (core : Core) : Row :=
  fresh core (.evaluate offer ceiling core.implementations)

/-- The row of a core that is not evaluated: that of earlier tables if they know the core. -/
def carry (previous : Tables) (ceiling : Nat) (core : Core) : Row :=
  match previous.entries[core.id]? with
  | some entry => ⟨core.id, entry, previous.executableCores.contains core.id⟩
  | none => fresh core (.unevaluated ceiling core.implementations)

end Row

namespace Tables

/-- The tables with a row for every core. -/
def ofRows (version : Nat) (rows : List Row) : Tables :=
  { version := version
    executableCores := (rows.filter Row.isExecutable).map Row.core
    entries := rows.map Row.entry }

/-- Evaluates every core. -/
def build (offer : Description) (ceiling : Nat) (catalog : Catalog) : Tables :=
  ofRows catalog.version (catalog.cores.map (Row.evaluate offer ceiling))

/-- Evaluates the cores in `changed`. Of the others, those that earlier tables know keep their
entries, and those they do not know stay unevaluated. -/
def rebuild (previous : Tables) (offer : Description) (ceiling : Nat) (catalog : Catalog)
    (changed : List Nat) : Tables :=
  ofRows catalog.version (catalog.cores.map fun core =>
    if changed.contains core.id then Row.evaluate offer ceiling core
    else Row.carry previous ceiling core)

/-! ## Queries -/

/-- The executable implementations of a core. -/
def executableOf (t : Tables) (core : Nat) : List Implementation :=
  match t.entries[core]? with
  | some entry => entry.executable
  | none => []

/-- The instances of an implementation, zero when it is unknown. -/
def instances (t : Tables) (core index : Nat) : Nat :=
  match t.entries[core]? with
  | some entry => entry.instances.getD index 0
  | none => 0

/-- The largest number of instances of a core. -/
def ideal (t : Tables) (core : Nat) : Nat :=
  match t.entries[core]? with
  | some entry => entry.ideal
  | none => 0

/-- The instances of a core that the slots allow. -/
def slots (t : Tables) (core : Nat) : Nat :=
  match t.entries[core]? with
  | some entry => entry.slots
  | none => 0

end Tables

end Wharf
