import StorageWeave.Bytes
import StorageWeave.Text.Blank
import StorageWeave.Text.Quoted

/-!
# Access flags

The modifiers of classes and members are a word of sixteen bits, nine of which have names. Flags
are written as the names of the bits that are set, then the unnamed bits as one hexadecimal number.
-/

namespace StorageWeave.Bytecode

/-- A word of modifiers. -/
structure Access where
  bits : UInt16
  deriving DecidableEq, Repr

namespace Access

def none : Access := ⟨0⟩
def «public» : Access := ⟨0x0001⟩
def «private» : Access := ⟨0x0002⟩
def «protected» : Access := ⟨0x0004⟩
def static : Access := ⟨0x0008⟩
def final : Access := ⟨0x0010⟩
def transient : Access := ⟨0x0080⟩
def interface : Access := ⟨0x0200⟩
def abstract : Access := ⟨0x0400⟩
def synthetic : Access := ⟨0x1000⟩

/-- The named flags in their order. -/
def named : List (String × Access) :=
  [("PUBLIC", .public), ("PRIVATE", .private), ("PROTECTED", .protected), ("STATIC", static),
   ("FINAL", final), ("TRANSIENT", transient), ("INTERFACE", interface), ("ABSTRACT", abstract),
   ("SYNTHETIC", synthetic)]

/-- All flags of both words. -/
def union (a b : Access) : Access := ⟨a.bits ||| b.bits⟩

/-- Whether all flags of `flags` are set. -/
def contains (a flags : Access) : Bool := a.bits &&& flags.bits = flags.bits

/-- Whether a flag of `flags` is set. -/
def intersects (a flags : Access) : Bool := a.bits &&& flags.bits ≠ 0

/-- The modifiers of the members that weaving adds. -/
def generated : Access := (Access.private.union synthetic).union transient

/-- No public, protected or private modifier. -/
def isPackagePrivate (a : Access) : Bool :=
  !a.intersects ((Access.public.union .protected).union .private)

/-! ## Text -/

/-- The bits without a name. -/
def unnamed (a : Access) : UInt16 :=
  named.foldl (fun rest f => rest &&& ~~~f.2.bits) a.bits

/-- A word as a hexadecimal number. -/
def hexText (w : UInt16) : String := "0x" ++ String.ofList (Text.hexDigits w.toNat)

/-- The flags as text; no flags give the empty text. -/
def render (a : Access) : String :=
  let names := (named.filter fun f => a.contains f.2).map Prod.fst
  let rest := a.unnamed
  " | ".intercalate (names ++ if rest = 0 then [] else [hexText rest])

/-- The flags as listings show them. -/
def inspect (a : Access) : String :=
  "AccessFlags(" ++ (if a.bits = 0 then "0x0" else a.render) ++ ")"

/-- A word given by hexadecimal digits of either case, with an optional plus sign. -/
def readHex? (digits : List Char) : Option UInt16 :=
  let digits := match digits with
    | '+' :: rest => rest
    | _ => digits
  let bytes := Bytes.ofText (String.ofList digits)
  match Bytes.hexNat? bytes with
  | some n => if n < 0x10000 then some n.toUInt16 else Option.none
  | Option.none => Option.none

/-- One part of the text of flags: a hexadecimal number or an exact name. -/
def readPart? (part : List Char) : Option Access :=
  match part with
  | '0' :: 'x' :: digits => (readHex? digits).map Access.mk
  | _ => (named.find? fun f => f.1.toList = part).map Prod.snd

/-- The flags with the given text; a blank text gives none. -/
def read? (s : String) : Option Access :=
  let cs := s.toList
  if (Text.trim cs).isEmpty then some .none
  else (Text.splitAt '|' cs).foldlM (fun a part => (readPart? (Text.trim part)).map a.union) .none

end Access

end StorageWeave.Bytecode
