import Pds1.Command.Assemble
import Pds1.Command.Dump

/-!
# Command line

The first argument chooses the command. Files are read before the command runs and written after
it.
-/

namespace Pds1

/-- Adds what is found at a path, if anything is. -/
def probe (d : Directory) (path : String) : IO Directory := do
  try
    let bytes ← IO.FS.readBinFile path
    return d.store (Place.ofPath path) bytes.data
  catch
    | .inappropriateType .. => return { d with folders := Place.ofPath path :: d.folders }
    | _ => return d

/-- The paths that a path leads through, itself last. -/
def waypoints (path : String) : List String :=
  let parts := Place.parts path
  (List.range parts.length).map fun n =>
    (if Path.isAbsolute path then "/" else "") ++ "/".intercalate (parts.take (n + 1))

/-- Looks up what the arguments may name. -/
def survey (args : List String) : IO Directory :=
  let values := args.flatMap fun arg => [arg, "=".intercalate (arg.splitOn "=").tail]
  let named := values.flatMap fun v =>
    [v, Path.withExtension v "lst", Path.withExtension v "bin"]
  (named.flatMap waypoints).eraseDups.foldlM probe ⟨[], []⟩

/-- A path to a place. -/
def pathTo : Place → String
  | "/" :: rest => "/" ++ "/".intercalate rest
  | p => "/".intercalate p

/-- Writes the files that a command changed. -/
def saveFiles (before after : Directory) : IO Unit :=
  for file in after.files do
    if before.find? file.1 != some file.2 then
      IO.FS.writeBinFile (pathTo file.1) ⟨file.2⟩

/-- Runs a command and shows what it left behind. -/
def execute (command : List String → Directory → Outcome) (args : List String) : IO UInt32 := do
  let directory ← survey args
  let outcome := command args directory
  IO.print outcome.output
  for event in outcome.log do
    IO.eprintln event.render
  saveFiles directory outcome.directory
  return UInt32.ofNat outcome.exit

end Pds1

def main (args : List String) : IO UInt32 :=
  match args with
  | "imdump" :: rest => Pds1.execute Pds1.Dumping.command rest
  | "assemble" :: rest => Pds1.execute Pds1.Assembling.command rest
  | rest => Pds1.execute Pds1.Assembling.command rest
