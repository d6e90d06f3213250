import Wharf.Probe.Answer

/-!
# Command line

Prints what a node could run of a catalog.
-/

open Wharf

/-- The bytes of a file. -/
def load (path : Path) : IO (Except FileError (List UInt8)) := do
  try
    let bytes ← IO.FS.readBinFile path.text
    return .ok bytes.toList
  catch _ =>
    return .error .notFound

/-- Runs the probe on the arguments. -/
def main (arguments : List String) : IO UInt32 := do
  let answer ← match Probe.Options.ofArguments? arguments with
    | none => pure Probe.misuse
    | some options => do
      let config ← load options.config
      let catalog ← load options.catalog
      pure (Probe.answer options.mode config catalog)
  IO.print answer.output
  if let some text := answer.complaint then IO.eprintln text
  return UInt32.ofNat answer.exit
