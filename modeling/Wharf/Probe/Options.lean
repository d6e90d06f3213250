import Wharf.Files.Path

/-!
# Options of the probe

The command line names two files and how the answer is written.

* `Options.ofArguments?` reads a command line. An option has its value behind a sign of equality or
  in the next argument; it may be given once. The two files have to be named.
-/

namespace Wharf.Probe

/-- How the answer is written. -/
inductive Mode
  | text
  | json
  deriving DecidableEq

/-- The mode of a name. -/
def Mode.ofName? (name : String) : Option Mode :=
  if name = "text" then some .text else if name = "json" then some .json else none

/-- What a command line asks for. -/
structure Options where
  /-- The settings of the node. -/
  config : Path
  /-- The settings of the catalog. -/
  catalog : Path
  mode : Mode
  debug : Bool
  deriving DecidableEq

namespace Options

/-- The options that were given so far. -/
structure Draft where
  config : Option String := none
  catalog : Option String := none
  mode : Option Mode := none
  debug : Bool := false

/-- Gives an option its value, unless it has one. -/
def Draft.assign (d : Draft) (name value : String) : Option Draft :=
  if name = "--config" ∧ d.config = none ∧ value ≠ "" then some { d with config := some value }
  else if name = "--catalog" ∧ d.catalog = none ∧ value ≠ "" then
    some { d with catalog := some value }
  else if name = "--output-mode" ∧ d.mode = none then
    (Mode.ofName? value).map fun mode => { d with mode := some mode }
  else none

/-- The parts of an argument before and behind its first sign of equality. -/
def splitValue (argument : String) : String × Option String :=
  let name := argument.toList.takeWhile (· != '=')
  match argument.toList.dropWhile (· != '=') with
  | [] => (argument, none)
  | _ :: value => (String.ofList name, some (String.ofList value))

/-- Whether an argument is a value: it does not start like an option. -/
def isValue (argument : String) : Bool := argument == "-" || argument.toList.head? != some '-'

/-- Reads the arguments. -/
def read (d : Draft) : List String → Option Draft
  | [] => some d
  | "--debug" :: rest => if d.debug then none else read { d with debug := true } rest
  | argument :: rest =>
    match splitValue argument with
    | (name, some value) => (d.assign name value).bind fun d => read d rest
    | (name, none) =>
      match rest with
      | [] => none
      | value :: rest =>
        if isValue value then (d.assign name value).bind fun d => read d rest else none

/-- The options of a command line; none when it cannot be used. -/
def ofArguments? (arguments : List String) : Option Options := do
  let d ← read {} arguments
  let config ← d.config
  let catalog ← d.catalog
  some ⟨⟨config⟩, ⟨catalog⟩, d.mode.getD .text, d.debug⟩

end Options

end Wharf.Probe
