import StorageWeave.Archive.Basic
import StorageWeave.Bytecode.Class
import StorageWeave.Weaving.Names

/-!
# Listings

The text that shows an archive or a class.
-/

namespace StorageWeave.Command

open Bytecode Numeric Weaving

/-- A text with a line end. -/
def line (s : String) : String := s ++ "\n"

/-- A text with blanks before it up to a width. -/
def padLeft (width : Nat) (s : String) : String := "".pushn ' ' (width - s.length) ++ s

/-- A text with blanks after it up to a width. -/
def padRight (width : Nat) (s : String) : String := s.pushn ' ' (width - s.length)

/-- The line of an archive entry. -/
def entryLine (e : Archive.Entry) : String :=
  line ("   " ++ padRight 8 (if e.isClass then "class" else "resource") ++ " "
    ++ padLeft 8 (natText e.data.length) ++ " bytes  " ++ e.name)

/-- The listing of an archive. -/
def archiveListing (path : String) (a : Archive) : String :=
  line ("📦 " ++ Text.quoted path ++ " (" ++ natText a.size ++ " entries)")
    ++ String.join (a.entries.map entryLine)

/-- The remark on added members. -/
def marker (name : String) : String := if Names.isSynthetic name then "  (generated)" else ""

/-- The line of a field. -/
def fieldLine (f : FieldDef) : String :=
  line ("   " ++ f.access.inspect ++ " " ++ f.name ++ " : " ++ f.type.typeName ++ marker f.name)

/-- The line of an annotation. -/
def annotationLine (a : Annotation) : String :=
  line ("   @" ++ a.name ++ (match a.argument with
    | some argument => "(" ++ argument ++ ")"
    | none => ""))

/-- Drops a carriage return at the end. -/
def dropCarriageReturn (cs : List Char) : List Char :=
  if cs.getLast? = some '\r' then cs.dropLast else cs

/-- The lines of a text, without their ends; nothing stands after the last end. -/
def linesOf (s : String) : List String :=
  let parts := Text.splitAt '\n' s.toList
  let parts := if parts.getLast? = some [] then parts.dropLast else parts
  parts.map fun cs => String.ofList (dropCarriageReturn cs)

/-- The listing of a method. -/
def methodListing (m : MethodDef) : String :=
  line ("\n" ++ m.name ++ m.signature.render ++ " " ++ m.access.inspect ++ marker m.name)
    ++ String.join (m.annotations.map annotationLine)
    ++ (match m.code with
      | some code => String.join ((linesOf (Code.listing code)).map fun l => line ("   " ++ l))
      | none => line "   (abstract)")

/-- The listing of a class. -/
def classListing (c : ClassDef) : String :=
  line ("class " ++ c.name ++ " extends " ++ c.superclass.getD "-")
    ++ (if c.interfaces.isEmpty then ""
      else line ("   implements " ++ ", ".intercalate c.interfaces))
    ++ line "\nFields:"
    ++ String.join (c.fields.map fieldLine)
    ++ String.join (c.methods.map methodListing)

end StorageWeave.Command
