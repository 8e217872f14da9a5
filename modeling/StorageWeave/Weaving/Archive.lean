import StorageWeave.Weaving.Class

/-!
# Weaving archives

The classes of an archive are woven in the order of its entries against one index over the archive
and its dependencies, with one memo. Other entries are copied. The result keeps a record of the
work, from which the log is written.
-/

namespace StorageWeave.Weaving

open Bytecode

/-- What was done to an archive. -/
structure ArchiveReport where
  /-- The number of archives that were indexed. -/
  archives : Nat
  /-- The number of classes that were indexed. -/
  indexed : Nat
  repeated : List RepeatedClass
  /-- The woven classes, in the order of their entries. -/
  classes : List WovenClass
  /-- The number of entries that were copied. -/
  copied : Nat
  deriving DecidableEq, Repr

/-- A woven archive, and what was done. -/
structure WovenArchive where
  result : Archive
  report : ArchiveReport
  deriving DecidableEq, Repr

/-- A woven entry, and its class if it holds one. -/
structure WovenEntry where
  entry : Archive.Entry
  woven : Option WovenClass
  deriving DecidableEq, Repr

namespace ArchiveWeaver

/-- Weaves the class of an entry, or copies the entry. -/
def weaveEntry {m : Type → Type} [Monad m] [MonadExceptOf WeaveError m] (h : Hierarchy)
    (o : Oracle m) (e : Archive.Entry) : m WovenEntry := do
  if e.isClass then
    match ClassDef.ofBytes? e.data with
    | none => throw (.invalidClass e.name)
    | some c =>
      let woven ← ClassWeaver.weave h o c
      return ⟨⟨e.name, woven.result.toBytes⟩, some woven⟩
  else return ⟨e, none⟩

end ArchiveWeaver

/-- Weaves an archive with the archives it depends on. -/
def weaveArchive (input : Archive) (dependencies : List Archive) (config : Config) :
    Except WeaveError WovenArchive := do
  let archives := input :: dependencies
  let built ← ClassIndex.build archives
  let h : Hierarchy := ⟨built.index, config⟩
  let (woven, _) ← (input.entries.mapM (ArchiveWeaver.weaveEntry h (.remembering h))).run {}
  let result ← (Archive.empty.pushAll (woven.map (·.entry))).mapError fun e => .archive (.format e)
  let classes := woven.filterMap (·.woven)
  return ⟨result, {
    archives := archives.length
    indexed := built.index.size
    repeated := built.repeated
    classes
    copied := input.size - input.classEntries.length }⟩

end StorageWeave.Weaving
