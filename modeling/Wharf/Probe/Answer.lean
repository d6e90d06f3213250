import Wharf.Probe.Options
import Wharf.Settings.Source
import Wharf.Text.Json
import Wharf.Worker.Report

/-!
# Answers of the probe

What a node could run of a catalog, from the two files that describe them.

* `Probe.workerOf` sets up the worker: the node's settings first, then the catalog, which registers
  the names of its consumables before those of the node.
* `Probe.render` writes the worker as a report or as JSON.
* `Probe.answer` is the output of one run and the code it exits with.
-/

namespace Wharf.Probe

/-- A worker and the names of its consumables. -/
structure Setup where
  worker : Worker
  names : NameTable

/-- The idle worker of a node for a catalog. -/
def workerOf (node : NodeSettings) (catalog : CatalogSettings) : Except Failure Setup :=
  let registered := catalog.registerIn .empty .standard
  match registered.outcome with
  | .error e => .error (.settings e)
  | .ok _ =>
    match node.resource.description.toDescription registered.names with
    | (.error e, _) => .error (.settings e)
    | (.ok description, names) =>
      let slots := node.resource.slots.toNat
      .ok ⟨.create node.name description slots registered.catalog, names⟩

/-- The settings of a catalog in a file, or why the file could not be read. -/
def catalogOfFile (content : Except FileError (List UInt8)) : Except Failure CatalogSettings :=
  match content with
  | .error e => .error (.file e)
  | .ok bytes =>
    match textOf bytes with
    | .error e => .error (.file e)
    | .ok text => (CatalogSettings.ofText text).mapError .settings

/-- Reads both files, the node first. -/
def setup (config catalog : Except FileError (List UInt8)) : Except Failure Setup :=
  match NodeSettings.ofFile config with
  | .error e => .error e
  | .ok node =>
    match catalogOfFile catalog with
    | .error e => .error e
    | .ok catalog => workerOf node catalog

/-- The facts about a worker, by name. -/
def facts (s : Setup) : Text.Json :=
  let w := s.worker
  let numbers (ns : List Nat) : Text.Json := .list (ns.map .number)
  .object
    [("catalog_version", .number w.tables.version),
     ("core_slots", numbers (w.tables.entries.map CoreEntry.slots)),
     ("description", .text (w.description.describe s.names)),
     ("executable_cores", numbers w.tables.executableCores),
     ("ideal_slots", numbers (w.tables.entries.map CoreEntry.ideal)),
     ("kind", .text (w.description.kind.name)),
     ("max_slots", .number w.slots.ceiling),
     ("name", .text w.name)]

/-- What is printed for a worker. -/
def render (s : Setup) : Mode → String
  | .text => s.worker.report s.names
  | .json => (facts s).pretty ++ "\n"

/-- The end of a run. -/
structure Answer where
  exit : Nat
  output : String
  /-- What goes to the reader of errors. -/
  complaint : Option String := none

/-- The run for a command line that cannot be used. -/
def misuse : Answer :=
  ⟨2, "", some "usage: --config FILE --catalog FILE [--output-mode text|json] [--debug]"⟩

/-- The run for two files. -/
def answer (mode : Mode) (config catalog : Except FileError (List UInt8)) : Answer :=
  match setup config catalog with
  | .error e => ⟨1, "", some e.message⟩
  | .ok s => ⟨0, render s mode, none⟩

end Wharf.Probe
