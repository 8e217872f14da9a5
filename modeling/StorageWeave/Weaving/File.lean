import StorageWeave.Files.Archive
import StorageWeave.Weaving.Log

/-!
# Weaving files

Reads an archive and its dependencies, weaves the archive and writes the result. Nothing is written
unless everything before has succeeded.
-/

namespace StorageWeave.Weaving

variable {m : Type → Type} [Monad m]

/-- What the weaving of a file logs. -/
def fileLog (input output : String) (dependencies : Nat) (report : ArchiveReport) : List LogLine :=
  ⟨.info, "Instrumenting " ++ input ++ " with " ++ Numeric.natText dependencies
    ++ " dependencies"⟩ :: report.logLines ++ [⟨.info, "Wrote " ++ output⟩]

/-- Weaves the archive of a file into another file, and returns the log. -/
def weaveFile (ops : Files.Operations m) (input output : String) (dependencies : List String)
    (config : Config) : m (Except WeaveError (List LogLine)) := do
  match ← Files.readArchive ops input with
  | .error e => return .error (.archive e)
  | .ok archive =>
    match ← Files.readArchives ops dependencies with
    | .error e => return .error (.archive e)
    | .ok archives =>
      match weaveArchive archive archives config with
      | .error e => return .error e
      | .ok woven =>
        match ← Files.writeArchive ops woven.result output with
        | .error e => return .error (.archive e)
        | .ok () => return .ok (fileLog input output archives.length woven.report)

end StorageWeave.Weaving
