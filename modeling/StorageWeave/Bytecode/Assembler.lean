import Std.Data.TreeMap
import StorageWeave.Bytecode.Code

/-!
# Assembling code

Generated code is written as a list of directives with symbolic labels. Assembling emits the
instructions in order, then points every branch with a label at the position where its label stands,
and checks the result.
-/

namespace StorageWeave.Bytecode

/-- A step of generated code. -/
inductive Directive where
  /-- An instruction as it is. -/
  | emit (instruction : Instruction)
  /-- An instruction whose targets all become the position of a label. -/
  | branch (instruction : Instruction) (label : String)
  /-- Names the position of the next instruction. -/
  | label (name : String)
  deriving DecidableEq, Repr

/-- What has been assembled so far. -/
structure Assembler where
  emitted : Array Instruction := #[]
  labels : Std.TreeMap String Nat := {}
  /-- Positions whose targets wait for a label, the last first. -/
  references : List (Nat × String) := []
  deriving Repr

namespace Assembler

/-- The position of the next instruction. -/
def position (a : Assembler) : Nat := a.emitted.size

/-- Appends an instruction. -/
def emit (a : Assembler) (i : Instruction) : Assembler := { a with emitted := a.emitted.push i }

/-- Appends an instruction whose targets wait for a label. -/
def branch (a : Assembler) (i : Instruction) (label : String) : Assembler :=
  let reference := (a.position, label)
  { a with emitted := a.emitted.push i, references := reference :: a.references }

/--
Binds a label to the next position. A label that was bound before is reported, and is bound to the
new position all the same.
-/
def bindLabel (a : Assembler) (label : String) : Assembler × Option CodeError :=
  ({ a with labels := a.labels.insert label a.position },
    (a.labels[label]?).map fun _ => .duplicateLabel label)

/-- Follows one directive. -/
def step (a : Assembler) : Directive → Assembler × Option CodeError
  | .emit i => (a.emit i, none)
  | .branch i label => (a.branch i label, none)
  | .label name => a.bindLabel name

/-- Follows directives until one fails. -/
def run (a : Assembler) : List Directive → Except CodeError Assembler
  | [] => .ok a
  | d :: rest =>
    match a.step d with
    | (a, none) => run a rest
    | (_, some e) => .error e

/-- Points the waiting branches at their labels. -/
def resolve (labels : Std.TreeMap String Nat) :
    List (Nat × String) → Array Instruction → Except CodeError (Array Instruction)
  | [], code => .ok code
  | (position, label) :: rest, code =>
    match labels[label]? with
    | none => .error (.undefinedLabel label)
    | some address =>
      resolve labels rest
        (code.modify position (Instruction.mapTargets fun _ => address.toUInt64))

/-- The finished code. -/
def finish (a : Assembler) : Except CodeError Code := do
  let code := (← resolve a.labels a.references.reverse a.emitted).toList
  Code.validate code
  return code

end Assembler

/-- Assembles a list of directives. -/
def assemble (ds : List Directive) : Except CodeError Code := do
  (← ({} : Assembler).run ds).finish

end StorageWeave.Bytecode
