import StorageWeave.Archive.Basic

/-!
# The archive format

An archive is stored as the four bytes `SCAR`, a version byte, the number of entries on four bytes,
and then for each entry the length of its name on two bytes, its name, the length of its data on
four bytes and its data. All numbers are big-endian.
-/

namespace StorageWeave.Archive

/-- The first bytes of every archive. -/
def magic : Bytes := [0x53, 0x43, 0x41, 0x52]

/-- The version of the format. -/
def version : UInt8 := 1

/-! ## Encoding -/

/-- A length on four bytes. -/
def encodeLength (n : Nat) (what : String) : Except FormatError Bytes :=
  if n < 0x100000000 then .ok (Bytes.ofNat 4 n) else .error (.tooLarge what)

/-- The bytes of an entry. -/
def Entry.encode (e : Entry) : Except FormatError Bytes :=
  let name := Bytes.ofText e.name
  if name.length < 0x10000 then do
    let dataLength ← encodeLength e.data.length e.name
    return Bytes.ofNat 2 name.length ++ name ++ dataLength ++ e.data
  else .error (.nameTooLong e.name)

/-- The bytes of an archive. -/
def encode (a : Archive) : Except FormatError Bytes := do
  let count ← encodeLength a.entries.length "entry count"
  let entries ← a.entries.mapM Entry.encode
  return magic ++ version :: count ++ entries.flatten

/-! ## Decoding -/

/-- Splits off a number of bytes. -/
def takeBytes (n : Nat) (s : Bytes) : Except FormatError (Bytes × Bytes) :=
  if n ≤ s.length then .ok (s.take n, s.drop n) else .error .truncated

/-- Splits off a big-endian number. -/
def takeNat (width : Nat) (s : Bytes) : Except FormatError (Nat × Bytes) := do
  let (bytes, s) ← takeBytes width s
  return (bytes.toNat, s)

/-- Reads an entry. -/
def Entry.decode (s : Bytes) : Except FormatError (Entry × Bytes) := do
  let (nameLength, s) ← takeNat 2 s
  let (name, s) ← takeBytes nameLength s
  match Bytes.text? name with
  | none => throw .nameNotText
  | some name =>
    let (dataLength, s) ← takeNat 4 s
    let (data, s) ← takeBytes dataLength s
    return (⟨name, data⟩, s)

/-- Reads a number of entries onto an archive. -/
def decodeEntries : Nat → Archive → Bytes → Except FormatError (Archive × Bytes)
  | 0, a, s => .ok (a, s)
  | count + 1, a, s => do
    let (e, s) ← Entry.decode s
    let a ← a.push e
    decodeEntries count a s

/-- Reads an archive. -/
def decode (s : Bytes) : Except FormatError Archive := do
  let (head, s) ← takeBytes magic.length s
  if head ≠ magic then throw .badMagic
  let (v, s) ← takeNat 1 s
  if v ≠ version.toNat then throw (.unsupportedVersion v)
  let (count, s) ← takeNat 4 s
  let (a, s) ← decodeEntries count empty s
  if s.isEmpty then return a else throw .trailingBytes

end StorageWeave.Archive
