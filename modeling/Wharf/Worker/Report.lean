import Wharf.Worker.Basic

/-!
# The monitoring report

`Worker.report` writes the state of a worker for a reader: its name and description, slots and free
consumables, and for every core what it could run at most.
-/

namespace Wharf.Worker

/-- The line of an executable implementation. -/
def reportImplementation (w : Worker) (core : Nat) (i : Implementation) : String :=
  "  IMPL " ++ toString core ++ "/" ++ toString i.index ++ " '" ++ i.signature
    ++ "': SIM_TASKS = " ++ toString (w.tables.instances core i.index) ++ "\n"

/-- The lines of a core. -/
def reportCore (w : Worker) (core : Nat) : String :=
  "CORE " ++ toString core ++ ": SIM_TASKS = " ++ toString (w.tables.slots core)
    ++ " (ideal " ++ toString (w.tables.ideal core) ++ ")\n"
    ++ String.join ((w.tables.executableOf core).map (w.reportImplementation core))

/-- The whole report. -/
def report (w : Worker) (names : NameTable) : String :=
  "NAME = " ++ w.name ++ "\n"
    ++ "DESCRIPTION = " ++ w.description.describe names ++ "\n"
    ++ "SLOTS = " ++ toString w.slots.used ++ "/" ++ toString w.slots.ceiling ++ "\n"
    ++ "FREE = [" ++ names.write w.slots.free ++ "]\n"
    ++ "EXEC_CORES = [" ++ Text.joined (w.tables.executableCores.map toString) ++ "]\n"
    ++ String.join ((List.range w.tables.entries.length).map w.reportCore)

end Wharf.Worker
