import StorageWeave.Archive.Codec
import StorageWeave.Files.Operations
import StorageWeave.Files.Path

/-!
# Archives in files

An archive is written to a temporary file beside its path and moved there, so that the path never
holds a part of one.
-/

namespace StorageWeave.Files

open Archive

variable {m : Type → Type} [Monad m]

/-- Reads an archive from a file. -/
def readArchive (ops : Operations m) (path : String) : m (Except ArchiveError Archive) := do
  match ← ops.read path with
  | none => return .error .io
  | some bytes => return (Archive.decode bytes).mapError .format

/-- Reads archives from files, up to the first that cannot be read. -/
def readArchives (ops : Operations m) : List String → m (Except ArchiveError (List Archive))
  | [] => return .ok []
  | path :: rest => do
    match ← readArchive ops path with
    | .error e => return .error e
    | .ok a =>
      match ← readArchives ops rest with
      | .error e => return .error e
      | .ok as => return .ok (a :: as)

/-- Writes a temporary file and moves it to a path; whether all went well. -/
def writeThrough (ops : Operations m) (temporary path : String) (bytes : Bytes) : m Bool := do
  if !(← ops.create temporary) then return false
  if !(← ops.write temporary bytes) then return false
  if !(← ops.flush temporary) then return false
  ops.rename temporary path

/-- Writes an archive to a file. After a failure the temporary file is removed. -/
def writeArchive (ops : Operations m) (a : Archive) (path : String) :
    m (Except ArchiveError Unit) := do
  match a.encode with
  | .error e => return .error (.format e)
  | .ok bytes =>
    let temporary := temporarySibling path
    if ← writeThrough ops temporary path bytes then return .ok ()
    if ← ops.isPresent temporary then ops.remove temporary
    return .error .io

end StorageWeave.Files
