import StorageWeave.Text.Blank

/-!
# Paths

Paths are texts whose components are separated by slashes. Empty components and single dots stand
for nothing, except for a dot at the front.
-/

namespace StorageWeave.Files

/-- Whether a path starts at the root. -/
def isAbsolute (path : String) : Bool := path.toList.head? = some '/'

/-- The components between the slashes. -/
def rawComponents (path : String) : List String := (Text.splitAt '/' path.toList).map String.ofList

/-- The components that count. -/
def components (path : String) : List String :=
  match rawComponents path with
  | [] => []
  | first :: rest =>
    (if first = "" then [] else [first]) ++ rest.filter fun c => c ≠ "" ∧ c ≠ "."

/-- The name that a path ends in, unless it ends in a dot, in two dots or nowhere. -/
def fileName? (path : String) : Option String :=
  match (components path).getLast? with
  | none => none
  | some c => if c = "." ∨ c = ".." then none else some c

/-- The name of the temporary file for a file name. -/
def temporaryName (name : String) : String := "." ++ name ++ ".tmp"

/-- Drops the components at the end that stand for nothing, except for the first component. -/
def dropIdle : List String → List String
  | [] => []
  | first :: rest => first :: (rest.reverse.dropWhile fun c => c = "" ∨ c = ".").reverse

/-- The text before the name that a path ends in, up to the slash before it. -/
def directoryText (path : String) : String :=
  match dropIdle (dropIdle (rawComponents path)).dropLast with
  | [] => ""
  | parents => "/".intercalate parents ++ "/"

/-- The text of a path with a slash at its end, if there is something to end. -/
def asDirectoryText (path : String) : String :=
  if path = "" ∨ path.toList.getLast? = some '/' then path else path ++ "/"

/--
The temporary file beside a path, which is written before it is moved there. A path without a file
name is taken as the directory of the temporary file.
-/
def temporarySibling (path : String) : String :=
  match fileName? path with
  | some name => directoryText path ++ temporaryName name
  | none => asDirectoryText path ++ temporaryName "archive"

end StorageWeave.Files
