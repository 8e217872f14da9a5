import StorageWeave.Weaving.Archive

/-!
# The log

The lines that tell what the weaving of an archive did.
-/

namespace StorageWeave.Weaving

open Numeric

/-- How important a line is. -/
inductive LogLevel where
  | warn
  | info
  | debug
  deriving DecidableEq, Repr

/-- The name of a level. -/
def LogLevel.name : LogLevel → String
  | .warn => "WARN"
  | .info => "INFO"
  | .debug => "DEBUG"

/-- A line of the log. -/
structure LogLine where
  level : LogLevel
  message : String
  deriving DecidableEq, Repr

/-- The text of a line. -/
def LogLine.render (l : LogLine) : String := l.level.name ++ " " ++ l.message

def boolText (b : Bool) : String := if b then "true" else "false"

/-- A class that was met again, with the start of its digest. -/
def RepeatedClass.logLine (r : RepeatedClass) : LogLine :=
  ⟨.warn, "Class " ++ r.className ++ " appears twice with identical bytes ("
    ++ Bytes.hex (r.digest.take 8) ++ ")"⟩

def Prologue.logLine (p : Prologue) : LogLine :=
  ⟨.debug, "Injecting " ++ p.role.name ++ " prologue into " ++ p.method.owner ++ "."
    ++ p.method.name ++ p.method.signature.render ++ " at " ++ natText p.position⟩

/-- The lines of a class. -/
def WovenClass.logLines (w : WovenClass) : List LogLine :=
  ⟨.debug, "Instrumenting " ++ w.result.name ++ " (storage: " ++ boolText w.storage
    ++ ", contract: " ++ boolText w.contract ++ ")"⟩
    :: w.prologues.map Prologue.logLine
    ++ w.augmented.toList.map fun n =>
      ⟨.debug, "Augmented storage class " ++ w.result.name ++ " (" ++ natText n.eager ++ " eager, "
        ++ natText n.lazy ++ " lazy fields)"⟩

/-- The lines of an archive. -/
def ArchiveReport.logLines (r : ArchiveReport) : List LogLine :=
  r.repeated.map RepeatedClass.logLine
    ++ ⟨.debug, "Indexed " ++ natText r.indexed ++ " classes from " ++ natText r.archives
      ++ " archives"⟩
    :: r.classes.flatMap WovenClass.logLines
    ++ [⟨.info, "Instrumented " ++ natText r.classes.length ++ " classes, copied "
      ++ natText r.copied ++ " other entries (" ++ natText r.indexed ++ " classes indexed)"⟩]

end StorageWeave.Weaving
