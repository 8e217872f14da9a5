import StorageWeave.Archive.Basic
import StorageWeave.Bytecode.Document.Reader
import StorageWeave.Bytecode.Document.Writer
import StorageWeave.Digest.Sha256
import StorageWeave.Weaving.Error

/-!
# Class indexes

The classes that the weaver can see, by name. A class may be met twice if its bytes have the same
digest both times, and the first one is kept; with different digests there is no index.
-/

namespace StorageWeave.Weaving

open Bytecode

/-- A class and the bytes it was read from. -/
structure IndexedClass where
  definition : ClassDef
  source : Bytes
  deriving DecidableEq, Repr

/-- The digest by which two sources of a class are compared. -/
def IndexedClass.digest (c : IndexedClass) : Bytes := Digest.sha256 c.source

/-- Classes by name, in the order in which they were met. -/
structure ClassIndex where
  classes : List IndexedClass := []
  deriving DecidableEq, Repr

/-- A class that was met once more with the same bytes. -/
structure RepeatedClass where
  className : String
  digest : Bytes
  deriving DecidableEq, Repr

namespace ClassIndex

/-- The entry of a class. -/
def find? (x : ClassIndex) (name : String) : Option IndexedClass :=
  x.classes.find? fun c => c.definition.name = name

/-- The class of a name. -/
def get? (x : ClassIndex) (name : String) : Option ClassDef := (x.find? name).map (·.definition)

/-- The number of classes. -/
def size (x : ClassIndex) : Nat := x.classes.length

/-- Whether there are no classes. -/
def isEmpty (x : ClassIndex) : Bool := x.classes.isEmpty

/-- The names of the classes, sorted. -/
def classNames (x : ClassIndex) : List String :=
  (x.classes.map fun c => c.definition.name).mergeSort fun a b => a ≤ b

/-- Adds a class, and tells when it was there with the same digest. -/
def insert (x : ClassIndex) (c : IndexedClass) :
    Except WeaveError (ClassIndex × Option RepeatedClass) :=
  match x.find? c.definition.name with
  | none => .ok (⟨x.classes ++ [c]⟩, none)
  | some known =>
    if known.digest = c.digest then .ok (x, some ⟨c.definition.name, c.digest⟩)
    else .error (.classConflict c.definition.name)

/-- An index under construction, with the classes that were met again. -/
structure Building where
  index : ClassIndex := {}
  repeated : List RepeatedClass := []
  deriving DecidableEq, Repr

/-- Adds a class to an index under construction. -/
def Building.add (b : Building) (c : IndexedClass) : Except WeaveError Building := do
  let (index, again) ← b.index.insert c
  return ⟨index, b.repeated ++ again.toList⟩

/-- Adds the class of an archive entry to an index under construction. -/
def Building.addEntry (b : Building) (e : Archive.Entry) : Except WeaveError Building :=
  match ClassDef.ofBytes? e.data with
  | none => .error (.invalidClass e.name)
  | some c => b.add ⟨c, e.data⟩

/-- The index of the class entries of several archives. -/
def build (archives : List Archive) : Except WeaveError Building :=
  (archives.flatMap Archive.classEntries).foldlM Building.addEntry {}

/-- The index of several classes, each with its stored form as source. -/
def ofClasses (classes : List ClassDef) : Except WeaveError ClassIndex := do
  let b ← classes.foldlM (fun (b : Building) c => b.add ⟨c, c.toBytes⟩) {}
  return b.index

end ClassIndex

end StorageWeave.Weaving
