import StorageWeave.Bytes
import StorageWeave.Numeric.Digits

/-!
# Archives

An archive is a list of named entries with distinct names. Entries whose name ends in `.class` hold
classes; the others are resources.
-/

namespace StorageWeave

open Numeric

namespace Archive

/-- A named piece of data. -/
structure Entry where
  name : String
  data : Bytes
  deriving DecidableEq, Repr

/-- The ending of the names of class entries. -/
def classSuffix : String := ".class"

/-- Whether an entry holds a class. -/
def Entry.isClass (e : Entry) : Bool :=
  classSuffix.toList.reverse.isPrefixOf e.name.toList.reverse

/-- The name of the entry of a class: slashes for its dots, and the ending. -/
def classEntryName (className : String) : String :=
  String.ofList (className.toList.map fun c => if c = '.' then '/' else c) ++ classSuffix

/-- Why bytes are no archive, or entries cannot stand in one. -/
inductive FormatError where
  | truncated
  | badMagic
  | unsupportedVersion (version : Nat)
  | nameNotText
  | duplicateEntry (name : String)
  | trailingBytes
  | nameTooLong (name : String)
  | tooLarge (what : String)
  deriving DecidableEq, Repr

/-- What is wrong, in words. -/
def FormatError.reason : FormatError → String
  | .truncated => "truncated archive"
  | .badMagic => "bad magic"
  | .unsupportedVersion version => "unsupported version " ++ natText version
  | .nameNotText => "entry name is not UTF-8"
  | .duplicateEntry name => "duplicate entry " ++ name
  | .trailingBytes => "trailing bytes"
  | .nameTooLong name => "entry name too long: " ++ name
  | .tooLarge what => what ++ " too large"

/-- The wording of an error. -/
def FormatError.message (e : FormatError) : String := "Invalid archive: " ++ e.reason

/-- Why an archive cannot be read or written. -/
inductive ArchiveError where
  /-- The file system refused. -/
  | io
  | format (cause : FormatError)
  deriving DecidableEq, Repr

/-- The wording of an error. -/
def ArchiveError.message : ArchiveError → String
  | .io => "IO error"
  | .format cause => cause.message

end Archive

open Archive in
/-- Named entries in their order. -/
structure Archive where
  entries : List Entry
  distinct : (entries.map Entry.name).Nodup
  deriving DecidableEq, Repr

namespace Archive

/-- No entries. -/
def empty : Archive := ⟨[], List.nodup_nil⟩

/-- The names of the entries, in order. -/
def names (a : Archive) : List String := a.entries.map Entry.name

/-- Appends an entry whose name is new. -/
def push (a : Archive) (e : Entry) : Except FormatError Archive :=
  if h : e.name ∈ a.entries.map Entry.name then .error (.duplicateEntry e.name)
  else .ok ⟨a.entries ++ [e], by
    rw [List.map_append, List.nodup_append]
    refine ⟨a.distinct, by simp, ?_⟩
    rintro x hx y hy rfl
    simp only [List.map_cons, List.map_nil, List.mem_singleton] at hy
    exact h (hy ▸ hx)⟩

/-- Appends entries until one has a name that is taken. -/
def pushAll (a : Archive) (es : List Entry) : Except FormatError Archive := es.foldlM push a

/-- The entry with a name. -/
def entry? (a : Archive) (name : String) : Option Entry := a.entries.find? fun e => e.name = name

/-- The entries that hold classes, in order. -/
def classEntries (a : Archive) : List Entry := a.entries.filter Entry.isClass

/-- The number of entries. -/
def size (a : Archive) : Nat := a.entries.length

/-- Whether there are no entries. -/
def isEmpty (a : Archive) : Bool := a.entries.isEmpty

/-- Appending an entry with a new name keeps the others in front of it. -/
theorem entries_of_push {a b : Archive} {e : Entry} (h : a.push e = .ok b) :
    b.entries = a.entries ++ [e] := by
  unfold push at h
  split at h
  · cases h
  · cases h; rfl

end Archive

end StorageWeave
