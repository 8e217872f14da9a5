import StorageWeave.Files.Operations
import StorageWeave.Files.Path
import StorageWeave.Table

/-!
# Volumes

A volume is a file system as a value: what stands at each place below its root, and which actions it
refuses on top of those that make no sense.
-/

namespace StorageWeave.Files

/-- A place below the root, given by the names on the way to it. -/
abbrev Location : Type := List String

/-- What stands at a place. -/
inductive Node where
  | file (content : Bytes)
  | directory
  deriving DecidableEq, Repr

/-- An action that a volume may refuse. -/
inductive Action where
  | read (path : String)
  | create (path : String)
  | write (path : String)
  | flush (path : String)
  | rename (source target : String)
  deriving DecidableEq, Repr

/-- A file system as a value. -/
structure Volume where
  nodes : Table Location Node := {}
  refuses : Action → Bool := fun _ => false

namespace Volume

/-- What stands at a place; the root is a directory. -/
def node? (v : Volume) (l : Location) : Option Node :=
  if l = [] then some .directory else v.nodes.get? l

/-- The greatest number of bytes in a name. -/
def nameLimit : Nat := 255

/-- The greatest number of bytes in a path. -/
def pathLimit : Nat := 4095

/-- Whether a path has an acceptable text: it is not too long and has no null character in it. -/
def isAcceptable (path : String) : Bool :=
  path.utf8ByteSize ≤ pathLimit && !path.toList.contains '\x00'

/--
Follows the components of a path from a directory; two dots lead out of it. A name that is too long
stands nowhere.
-/
def follow (v : Volume) : Location → List String → Option Location
  | l, [] => some l
  | l, c :: rest =>
    if v.node? l ≠ some .directory then none
    else if c = "." then follow v l rest
    else if c = ".." then if l = [] then none else follow v l.dropLast rest
    else if nameLimit < c.utf8ByteSize then none
    else follow v (l ++ [c]) rest

/-- The place of a relative path, which nothing needs to stand at. -/
def locate? (v : Volume) (path : String) : Option Location :=
  if path.isEmpty ∨ isAbsolute path ∨ !isAcceptable path then none
  else v.follow [] (components path)

/-- Whether a path can only be one of a directory. -/
def namesDirectory (path : String) : Bool :=
  match (rawComponents path).getLast? with
  | some c => c = "" ∨ c = "." ∨ c = ".."
  | none => true

/-- The place that a file of a path can have. -/
def fileLocation? (v : Volume) (path : String) : Option Location :=
  if namesDirectory path then none
  else (v.locate? path).filter fun l => v.node? l ≠ some .directory

/-- Puts a file at a place. -/
def put (v : Volume) (l : Location) (content : Bytes) : Volume :=
  { v with nodes := v.nodes.set l (.file content) }

/-- The content of a file. -/
def read (v : Volume) (path : String) : Option Bytes :=
  if v.refuses (.read path) then none
  else
    match (v.fileLocation? path).bind v.node? with
    | some (.file content) => some content
    | _ => none

/-- Gives the file of a path its content. -/
def store (v : Volume) (action : Action) (path : String) (content : Bytes) : Bool × Volume :=
  if v.refuses action then (false, v)
  else
    match v.fileLocation? path with
    | some l => (true, v.put l content)
    | none => (false, v)

/-- Moves a file. -/
def rename (v : Volume) (source target : String) : Bool × Volume :=
  if v.refuses (.rename source target) then (false, v)
  else
    match v.fileLocation? source, v.fileLocation? target with
    | some l, some k =>
      match v.node? l with
      | some (.file content) =>
        (true, ({ v with nodes := v.nodes.erase l } : Volume).put k content)
      | _ => (false, v)
    | _, _ => (false, v)

/-- Whether something stands at a path. -/
def isPresent (v : Volume) (path : String) : Bool := ((v.locate? path).bind v.node?).isSome

/-- Removes a file. -/
def remove (v : Volume) (path : String) : Volume :=
  match v.fileLocation? path with
  | some l => { v with nodes := v.nodes.erase l }
  | none => v

/-- Makes a directory where nothing stands. -/
def makeDirectory (v : Volume) (path : String) : Bool × Volume :=
  match v.locate? path with
  | some l =>
    if (v.node? l).isSome then (false, v)
    else (true, { v with nodes := v.nodes.set l .directory })
  | none => (false, v)

/-- The names in the root, sorted. -/
def rootNames (v : Volume) : List String :=
  (v.nodes.keys.filterMap fun l => if l.length = 1 then l.head? else none).mergeSort
    fun a b => a ≤ b

/-- The operations on a volume. -/
def operations : Operations (StateM Volume) where
  read path := do return (← get).read path
  create path := modifyGet fun v => v.store (.create path) path []
  write path content := modifyGet fun v => v.store (.write path) path content
  flush path := do return !(← get).refuses (.flush path)
  rename source target := modifyGet fun v => v.rename source target
  isPresent path := do return (← get).isPresent path
  remove path := modify fun v => v.remove path

end Volume

end StorageWeave.Files
