import StorageWeave.Machine.State

/-!
# Steps of a frame

A frame is one activation of a method: its code, the position of the next instruction, the operand
stack and the local slots. `Frame.step` executes one instruction. A call instruction hands the call
out and leaves the frame waiting; `Frame.resume` lets it go on with the result.
-/

namespace StorageWeave.Machine

open Bytecode

/-- A call with its arguments, the receiver first if there is one. -/
structure Call where
  kind : InvokeKind
  owner : String
  name : String
  signature : Signature
  args : List Value
  deriving DecidableEq, Repr

/-- The values in the local slots of a frame. -/
abbrev Locals : Type := Std.TreeMap UInt16 Value

/-- An activation of a method. -/
structure Frame where
  code : Array Instruction
  position : Nat := 0
  /-- The operand stack, its top first. -/
  stack : List Value := []
  locals : Locals
  /-- The number of instructions that the activation may still execute. -/
  remaining : Nat
  deriving Repr

/-- What a step leads to. -/
inductive Step where
  /-- The frame goes on. -/
  | next (frame : Frame) (state : State)
  /-- The frame waits for the result of a call. -/
  | call (call : Call) (frame : Frame) (state : State)
  /-- The method returns. -/
  | done (value : Option Value) (state : State)
  | fault (cause : Fault) (state : State)

/-- The number of local slots of a frame. -/
def slotBound : Nat := 0x10000

/-- Puts values into local slots one after the other, wide ones on two slots. -/
def layOut (slot : Nat) (locals : Locals) : List Value → Except Fault Locals
  | [] => .ok locals
  | v :: rest =>
    if slot + v.size < slotBound then
      layOut (slot + v.size) (locals.insert slot.toUInt16 v) rest
    else .error .tooManyArguments

namespace Frame

/-- The number of instructions that one activation may execute. -/
def stepLimit : Nat := 100000

/-- The frame of a method before its first instruction. -/
def start (code : Code) (args : List Value) : Except Fault Frame := do
  return { code := code.toArray, locals := ← layOut 0 {} args, remaining := stepLimit }

/-- Goes on with the result of a call. -/
def resume (f : Frame) (value : Option Value) : Frame :=
  { f with stack := value.toList ++ f.stack }

/-- Goes on with the next instruction and a stack. -/
def advance (f : Frame) (stack : List Value) (s : State) : Step :=
  .next { f with position := f.position + 1, stack } s

/-- Goes on at a target or with the next instruction. -/
def branch (f : Frame) (taken : Bool) (target : Target) (stack : List Value) (s : State) : Step :=
  .next { f with position := if taken then target.toNat else f.position + 1, stack } s

/-- Goes on with a computed value on top of a stack, or stops with its fault. -/
def pushResult (f : Frame) (stack : List Value) (s : State) : Except Fault Value → Step
  | .ok v => f.advance (v :: stack) s
  | .error e => .fault e s

/-- Hands out a call with the arguments on the stack. -/
def makeCall (f : Frame) (kind : InvokeKind) (owner name : String) (signature : Signature)
    (s : State) : Step :=
  let count := signature.params.length + if kind.hasReceiver then 1 else 0
  if f.stack.length < count then .fault .stackUnderflow s
  else
    .call ⟨kind, owner, name, signature, (f.stack.take count).reverse⟩
      { f with position := f.position + 1, stack := f.stack.drop count } s

/-- The target of a computed jump. -/
def switchTarget (targets : List Target) (default : Target) (v : Int32) : Target :=
  if v.toInt < 0 then default else (targets[v.toInt.toNat]?).getD default

/-- Executes an instruction. -/
def execute (f : Frame) (i : Instruction) (s : State) : Step :=
  match i, f.stack with
  | .load _ slot, stack =>
    match f.locals[slot]? with
    | some v => f.advance (v :: stack) s
    | none => .fault (.uninitializedLocal slot) s
  | .store _ slot, v :: stack =>
    { f with locals := f.locals.insert slot v }.advance stack s
  | .increment slot delta, stack =>
    match f.locals[slot]? with
    | some (.int v) => { f with locals := f.locals.insert slot (.int (v + delta)) }.advance stack s
    | some _ => .fault (.typeMismatch "int") s
    | none => .fault (.uninitializedLocal slot) s
  | .const value, stack => f.advance (.ofConstant value :: stack) s
  | .getField _ name type, object :: stack =>
    f.advance ((s.field? object name).getD (.ofType type) :: stack) s
  | .putField _ name _, value :: object :: stack =>
    match s.place? object with
    | some place => f.advance stack (s.write place name value)
    | none => .fault .invalidReference s
  | .invoke kind owner name signature, _ => f.makeCall kind owner name signature s
  | .new className, stack =>
    let (object, s) := s.allocate className
    f.advance (object :: stack) s
  | .checkCast _, stack => f.advance stack s
  | .dup, v :: stack => f.advance (v :: v :: stack) s
  | .pop, _ :: stack => f.advance stack s
  | .arithmetic op _, b :: a :: stack => f.pushResult stack s (arithmetic op a b)
  | .compare _, b :: a :: stack => f.pushResult stack s (compareValues a b)
  | .rawBits kind, v :: stack => f.pushResult stack s (rawBits kind v)
  | .goto target, stack => f.branch true target stack s
  | .branchIf condition target, v :: stack =>
    match v.toInt with
    | .ok x => f.branch (holds condition (compare x.toInt 0)) target stack s
    | .error e => .fault e s
  | .branchIfCompare kind condition target, b :: a :: stack =>
    match comparisonHolds kind condition a b with
    | .ok taken => f.branch taken target stack s
    | .error e => .fault e s
  | .branchIfNull isNull target, v :: stack =>
    f.branch (v.equals .null == isNull) target stack s
  | .switch targets default, v :: stack =>
    match v.toInt with
    | .ok x => f.branch true (switchTarget targets default x) stack s
    | .error e => .fault e s
  | .return none, _ => .done none s
  | .return (some _), v :: _ => .done (some v) s
  | .throw, _ => .fault .thrown s
  | .getStatic owner name type, _ =>
    .fault (.unsupported (Instruction.render (.getStatic owner name type))) s
  | .putStatic owner name type, _ =>
    .fault (.unsupported (Instruction.render (.putStatic owner name type))) s
  | _, _ => .fault .stackUnderflow s

/-- Executes the next instruction, if the frame may execute one more. -/
def step (f : Frame) (s : State) : Step :=
  match f.remaining with
  | 0 => .fault .stepLimit s
  | remaining + 1 =>
    match f.code[f.position]? with
    | some i => { f with remaining }.execute i s
    | none => .fault .fellOffCode s

end Frame

end StorageWeave.Machine
