import StorageWeave.Command.Listing
import StorageWeave.Weaving.File

/-!
# Commands

The two commands of the program: weaving an archive, and listing an archive or a class of it. A
command gives the text it prints, also when it fails on the way.
-/

namespace StorageWeave.Command

open Bytecode Weaving

variable {m : Type → Type} [Monad m]

/-- Why a command fails. -/
inductive CommandError where
  | weaving (cause : WeaveError)
  | archive (cause : Archive.ArchiveError)
  | config (cause : Config.FileError)
  /-- The bytes of a class cannot be read. -/
  | unreadableClass
  | noClass (className path : String)
  deriving DecidableEq, Repr

/-- The wording of an error. -/
def CommandError.message : CommandError → String
  | .weaving cause => cause.message
  | .archive cause => cause.message
  | .config .io => "IO error"
  | .config .parse => "Parse error"
  | .unreadableClass => "Parse error"
  | .noClass className path => "No class " ++ className ++ " in " ++ Text.quoted path

/-- What a command prints and logs, and how it ends. -/
structure Result where
  output : String
  error : Option CommandError := none
  log : List LogLine := []
  deriving DecidableEq, Repr

/-- The configuration of a file, or the standard one. -/
def loadConfig (ops : Files.Operations m) :
    Option String → m (Except Config.FileError Config)
  | none => return .ok {}
  | some path => return Config.ofFile (← ops.read path)

/-- Weaves an archive. -/
def instrument (ops : Files.Operations m) (input output : String) (libraries : List String)
    (config : Option String) : m Result := do
  match ← loadConfig ops config with
  | .error e => return { output := "", error := some (.config e) }
  | .ok config =>
    let heading := line ("🔧 Instrumenting " ++ Text.quoted input)
      ++ (if libraries.isEmpty then ""
        else line ("   📚 Dependencies: " ++ Numeric.natText libraries.length))
    match ← weaveFile ops input output libraries config with
    | .error e => return { output := heading, error := some (.weaving e) }
    | .ok log =>
      return {
        output := heading ++ line ("✅ Instrumented archive written to " ++ Text.quoted output)
        log }

/-- Lists an archive, or a class of it. -/
def inspect (ops : Files.Operations m) (input : String) (className : Option String) :
    m Result := do
  match ← Files.readArchive ops input with
  | .error e => return { output := "", error := some (.archive e) }
  | .ok archive =>
    match className with
    | none => return { output := archiveListing input archive }
    | some className =>
      match archive.entry? (Archive.classEntryName className) with
      | none => return { output := "", error := some (.noClass className input) }
      | some e =>
        match ClassDef.ofBytes? e.data with
        | none => return { output := "", error := some .unreadableClass }
        | some c => return { output := classListing c }

end StorageWeave.Command
