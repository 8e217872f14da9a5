import StorageWeave.Bytes

/-!
# File operations

The operations on files that the commands use, each of which the file system may refuse. Commands
are written over them, so that they run on a disk and on the volumes of `Files.Volume`.
-/

namespace StorageWeave.Files

/-- Operations on files; `false` and `none` stand for a refusal. -/
structure Operations (m : Type → Type) where
  /-- The content of a file. -/
  read : String → m (Option Bytes)
  /-- Makes a file without content, or empties it. -/
  create : String → m Bool
  /-- Gives a created file its content. -/
  write : String → Bytes → m Bool
  /-- Makes sure that the content has been written. -/
  flush : String → m Bool
  /-- Moves a file to another path in one step, replacing the file there. -/
  rename : String → String → m Bool
  /-- Whether there is something at a path. -/
  isPresent : String → m Bool
  /-- Removes a file, if the file system lets it. -/
  remove : String → m Unit

end StorageWeave.Files
