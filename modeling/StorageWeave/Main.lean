import StorageWeave.Command.Arguments
import StorageWeave.Command.Basic

/-!
# The program

Runs a command on the files of the disk.
-/

namespace StorageWeave

/-- Whether an action on the disk succeeds. -/
def succeeds (action : IO Unit) : IO Bool := do
  try
    action
    return true
  catch _ => return false

/-- The operations on the disk. -/
def diskOperations : Files.Operations IO where
  read path := do
    try return some (← IO.FS.readBinFile path).data.toList
    catch _ => return none
  create path := succeeds (IO.FS.writeBinFile path .empty)
  write path content := succeeds (IO.FS.writeBinFile path ⟨content.toArray⟩)
  flush _ := return true
  rename source target := succeeds (IO.FS.rename source target)
  isPresent path := succeeds (discard (IO.FS.Handle.mk path .read))
  remove path := discard (succeeds (IO.FS.removeFile path))

/-- Prints what a command gives. -/
def report (r : Command.Result) : IO UInt32 := do
  for entry in r.log do
    if entry.level ≠ .debug then IO.eprintln entry.render
  IO.print r.output
  match r.error with
  | none => return 0
  | some e =>
    IO.eprintln ("Error: " ++ e.message)
    return 1

end StorageWeave

open StorageWeave in
/-- Runs the program. -/
def main (args : List String) : IO UInt32 := do
  match Command.readArguments args with
  | .error e =>
    IO.eprintln ("error: " ++ e.message)
    return 2
  | .ok (.instrument input output libraries config) =>
    report (← Command.instrument diskOperations input output libraries config)
  | .ok (.inspect input className) => report (← Command.inspect diskOperations input className)
