import Wharf.Worker.Slots
import Wharf.Worker.Tables

/-!
# Workers

Admission control of one resource: its capability tables say what it could run when idle, its slots
what it can start now. Workers are values, so trying out a placement on one leaves it as it is.

* `Worker.update` and `Worker.updateAll` follow the catalog.
* `Worker.canRun` asks the tables, `Worker.canRunNow` and the `runnable` queries the slots.
* `Worker.reserve?` and `Worker.release?` take and give back capacity.
-/

namespace Wharf

/-- A resource with its tables and its live capacity. -/
structure Worker where
  name : String
  description : Description
  slots : Slots
  tables : Tables
  deriving DecidableEq

namespace Worker

/-- An idle worker for a catalog. -/
def create (name : String) (description : Description) (ceiling : Nat) (catalog : Catalog) :
    Worker :=
  { name := name
    description := description
    slots := .idle ceiling description.consumables
    tables := .build description ceiling catalog }

/-- Follows the changes of some cores; the others keep their entries. -/
def update (w : Worker) (catalog : Catalog) (changed : List Nat) : Worker :=
  { w with tables := .rebuild w.tables w.description w.slots.ceiling catalog changed }

/-- Evaluates every core afresh. -/
def updateAll (w : Worker) (catalog : Catalog) : Worker :=
  { w with tables := .build w.description w.slots.ceiling catalog }

/-- The instances of an implementation on the idle resource. -/
def simultaneous (w : Worker) (i : Implementation) : Nat :=
  (simultaneous? w.description w.slots.ceiling i).getD 0

/-- Whether an implementation of the core fits the idle resource. -/
def canRun (w : Worker) (core : Nat) : Bool := decide (0 < w.tables.ideal core)

/-! ## What can start now -/

/-- Whether a demand matches and can start now. -/
def canRunNow (w : Worker) (demand : Description) : Bool :=
  w.description.accepts demand && w.slots.canTake demand.consumables

/-- Those of the candidates that could start now. -/
def filterRunnable (w : Worker) (candidates : List Implementation) : List Implementation :=
  candidates.filter fun i => w.canRunNow i.requirements

/-- The executable implementations of a core that could start now. -/
def runnableNow (w : Worker) (core : Nat) : List Implementation :=
  w.filterRunnable (w.tables.executableOf core)

/-- What could start now, core by core. -/
def runnableImplementations (w : Worker) : List (List Implementation) :=
  w.tables.entries.map fun entry => w.filterRunnable entry.executable

/-- The executable cores of which something could start now. -/
def runnableCores (w : Worker) : List Nat :=
  w.tables.executableCores.filter fun core => !(w.runnableNow core).isEmpty

/-! ## Taking and giving back -/

/-- Takes a slot and the amounts of a demand that matches; none when the resource is full. -/
def reserve? (w : Worker) (demand : Description) : Option Worker :=
  if w.description.accepts demand then
    (w.slots.reserve? demand.consumables).map fun slots => { w with slots := slots }
  else none

/-- Gives a demand back, whether it was reserved or not; none when an addition gets out of
range. -/
def release? (w : Worker) (demand : Description) : Option Worker :=
  (w.slots.release demand.consumables w.description.consumables).map fun released =>
    { w with slots := released.slots }

/-- Takes what an implementation needs. -/
def reserveImplementation? (w : Worker) (i : Implementation) : Option Worker :=
  w.reserve? i.requirements

/-- Gives back what an implementation needs; those for another kind of resource need nothing
here. -/
def releaseImplementation? (w : Worker) (i : Implementation) : Option Worker :=
  if i.requirements.kind = w.description.kind then w.release? i.requirements else some w

end Worker

end Wharf
