import StorageWeave.Json.Token

/-!
# JSON values

A JSON value keeps what the text says: numbers by their digits, members of objects in order with
repeated keys, and strings that form no text. Values are read by a pushdown machine over the
tokens, so that nesting of any depth is read in constant stack.
-/

namespace StorageWeave

open Json in
/-- A JSON value as written. -/
inductive Json where
  | null
  | bool (value : Bool)
  | number (value : Numeral)
  | string (value : Text)
  | array (elements : List Json)
  | object (members : List (Text × Json))
  deriving Repr

namespace Json

/-- A string with a text. -/
def text (s : String) : Json := .string (some s)

/-- The absent value or the written one. -/
def ofOption {α : Type} (write : α → Json) : Option α → Json
  | none => .null
  | some a => write a

/-- An object with well-formed keys. -/
def record (members : List (String × Json)) : Json :=
  .object (members.map fun m => (some m.1, m.2))

/-! ## Reading -/

/-- A container that is still open, with what it holds so far, the last first. -/
inductive Frame where
  | array (done : List Json)
  | object (done : List (Text × Json)) (key : Text)

/-- What the machine waits for. -/
inductive Phase where
  /-- A value. -/
  | value
  /-- A value, or the end of an array without elements. -/
  | firstElement
  /-- A key, or the end of an object without members. -/
  | firstKey
  /-- A key, after a comma. -/
  | key (done : List (Text × Json))
  /-- The colon after a key. -/
  | colon (done : List (Text × Json)) (key : Text)
  /-- A comma or the end of the innermost container, after a value. -/
  | complete (value : Json)

/-- The state of the machine: the open containers, the innermost first. -/
structure Reader where
  stack : List Frame
  phase : Phase

namespace Reader

/-- Before the first token. -/
def start : Reader := ⟨[], .value⟩

/-- The first token of a value. -/
def value? (stack : List Frame) : Token → Option Reader
  | .null => some ⟨stack, .complete .null⟩
  | .bool b => some ⟨stack, .complete (.bool b)⟩
  | .number n => some ⟨stack, .complete (.number n)⟩
  | .string s => some ⟨stack, .complete (.string s)⟩
  | .openArray => some ⟨.array [] :: stack, .firstElement⟩
  | .openObject => some ⟨stack, .firstKey⟩
  | _ => none

/-- The token after a complete value inside a container. -/
def after? (v : Json) : List Frame → Token → Option Reader
  | .array done :: stack, .comma => some ⟨.array (v :: done) :: stack, .value⟩
  | .array done :: stack, .closeArray => some ⟨stack, .complete (.array (v :: done).reverse)⟩
  | .object done key :: stack, .comma => some ⟨stack, .key ((key, v) :: done)⟩
  | .object done key :: stack, .closeObject =>
    some ⟨stack, .complete (.object ((key, v) :: done).reverse)⟩
  | _, _ => none

/-- Takes one token. -/
def step? (r : Reader) (t : Token) : Option Reader :=
  match r.phase, t with
  | .value, t => value? r.stack t
  | .firstElement, .closeArray => some ⟨r.stack.tail, .complete (.array [])⟩
  | .firstElement, t => value? r.stack t
  | .firstKey, .closeObject => some ⟨r.stack, .complete (.object [])⟩
  | .firstKey, .string k => some ⟨r.stack, .colon [] k⟩
  | .key done, .string k => some ⟨r.stack, .colon done k⟩
  | .colon done k, .colon => some ⟨.object done k :: r.stack, .value⟩
  | .complete v, t => after? v r.stack t
  | _, _ => none

/-- The value, once no container is open. -/
def finish? (r : Reader) : Option Json :=
  match r.stack, r.phase with
  | [], .complete v => some v
  | _, _ => none

end Reader

/-- Reads the tokens of a byte string into the machine, to the end. -/
def readFrom? (r : Reader) (s : Bytes) : Option Json :=
  match s with
  | [] => r.finish?
  | b :: rest =>
    if isBlank b then readFrom? r rest
    else
      match _h : Token.read? b rest with
      | none => none
      | some (t, rest') =>
        match r.step? t with
        | none => none
        | some r' => readFrom? r' rest'
  termination_by s.length
  decreasing_by
    · simp
    · have := Token.length_read? _h
      simp at this ⊢
      omega

/-- Reads one JSON value with blanks around it. -/
def parse? (s : Bytes) : Option Json := readFrom? Reader.start s

/-! ## Depth -/

mutual

/-- The number of containers around the innermost part of a value. -/
def depth : Json → Nat
  | .array elements => elementsDepth elements + 1
  | .object members => membersDepth members + 1
  | _ => 0

/-- The greatest depth of an element. -/
def elementsDepth : List Json → Nat
  | [] => 0
  | v :: rest => max (depth v) (elementsDepth rest)

/-- The greatest depth of a member. -/
def membersDepth : List (Text × Json) → Nat
  | [] => 0
  | (_, v) :: rest => max (depth v) (membersDepth rest)

end

end Json

end StorageWeave
