import StorageWeave.Machine.Hook
import StorageWeave.Machine.Step

/-!
# Calls

A call finds its method from the class of its receiver, or from the named class, up the
superclasses, and runs it in a new frame, while the frame of the caller waits. Classes that are not
loaded belong to the platform, whose methods are hooks. A fault ends all frames.

A thread can run forever, so it is run for a given number of steps.
-/

namespace StorageWeave.Machine

open Bytecode Weaving

/-- The loaded classes and the names of the platform types. -/
structure Program where
  classes : Table String ClassDef
  config : Config := {}
  deriving DecidableEq, Repr

/-- What a call runs. -/
inductive Callee where
  | code (code : Code)
  /-- A method of a platform type. -/
  | hook (className : String)
  deriving DecidableEq, Repr

namespace Program

/-- A program with the given classes; of two with one name the later is loaded. -/
def ofClasses (classes : List ClassDef) : Program :=
  ⟨classes.foldl (fun t c => t.set c.name c) {}, {}⟩

/-- The class that dispatch on a value starts from. -/
def classOf (p : Program) (s : State) : Value → Except Fault String
  | .object id =>
    match s.heap[id]? with
    | some o => .ok o.className
    | none => .error .invalidReference
  | .str _ => .ok p.config.stringType
  | _ => .error .invalidReference

/-- The code of a method that a class declares. -/
def codeOf? (c : ClassDef) (name : String) (signature : Signature) : Option Code :=
  (c.method? name signature).bind (·.code)

/-- Looks for code in a class and its superclasses; `first` is where the search started. -/
def resolveFrom (p : Program) (first name : String) (signature : Signature) :
    Nat → String → Except Fault Callee
  | 0, _ => .error .endlessDispatch
  | fuel + 1, current =>
    match p.classes.get? current with
    | none => .ok (.hook current)
    | some c =>
      match codeOf? c name signature with
      | some code => .ok (.code code)
      | none =>
        match c.superclass with
        | some s => resolveFrom p first name signature fuel s
        | none => .error (.noSuchMethod (first ++ "." ++ name ++ signature.render))

/-- What a call from a class runs. -/
def resolve (p : Program) (first name : String) (signature : Signature) : Except Fault Callee :=
  p.resolveFrom first name signature (p.classes.size + 1) first

/-- The class that a call starts from. -/
def dispatchClass (p : Program) (c : Call) (s : State) : Except Fault String :=
  match c.kind with
  | .special => .ok c.owner
  | .static => .ok c.owner
  | _ =>
    match c.args with
    | [] => .error .stackUnderflow
    | receiver :: _ => p.classOf s receiver

/-- What a call runs in a state. -/
def callee (p : Program) (c : Call) (s : State) : Except Fault Callee := do
  p.resolve (← p.dispatchClass c s) c.name c.signature

end Program

/-! ## Threads -/

/-- The running frame, the frames that wait for its result, the innermost first, and the state. -/
structure Thread where
  frame : Frame
  callers : List Frame
  state : State
  deriving Repr

/-- A thread that goes on, or what it has ended with. -/
inductive Progress where
  | running (thread : Thread)
  | ended (outcome : Outcome (Option Value))

namespace Progress

/-- Hands a result to the innermost waiting frame, or ends with it. -/
def returning (value : Option Value) (callers : List Frame) (s : State) : Progress :=
  match callers with
  | [] => .ended ⟨.ok value, s⟩
  | f :: rest => .running ⟨f.resume value, rest, s⟩

/-- Ends with a fault. -/
def faulting (cause : Fault) (s : State) : Progress := .ended ⟨.error cause, s⟩

end Progress

namespace Program

/-- Makes a call while the given frames wait: starts the frame of a method, or runs a hook. -/
def enter (p : Program) (c : Call) (callers : List Frame) (s : State) : Progress :=
  match p.callee c s with
  | .error e => .faulting e s
  | .ok (.code code) =>
    match Frame.start code c.args with
    | .error e => .faulting e s
    | .ok f => .running ⟨f, callers, s⟩
  | .ok (.hook className) =>
    match (runHook p.config className c.name c.args).run s with
    | (.error e, s) => .faulting e s
    | (.ok value, s) => .returning value callers s

/-- Executes one instruction of the running frame. -/
def step (p : Program) (t : Thread) : Progress :=
  match t.frame.step t.state with
  | .next f s => .running ⟨f, t.callers, s⟩
  | .call c f s => p.enter c (f :: t.callers) s
  | .done value s => .returning value t.callers s
  | .fault e s => .faulting e s

/-- Runs for at most `fuel` steps; `none` when the thread has not ended by then. -/
def run (p : Program) : Nat → Progress → Option (Outcome (Option Value))
  | _, .ended o => some o
  | 0, .running _ => none
  | fuel + 1, .running t => run p fuel (p.step t)

/-- Makes a call and runs it to its end. -/
def call (p : Program) (fuel : Nat) (c : Call) (s : State) : Option (Outcome (Option Value)) :=
  p.run fuel (p.enter c [] s)

/-- Calls a method of an object. -/
def callMethod (p : Program) (fuel : Nat) (receiver : Value) (name : String)
    (signature : Signature) (args : List Value) (s : State) : Option (Outcome (Option Value)) :=
  match p.classOf s receiver with
  | .error e => some ⟨.error e, s⟩
  | .ok className => p.call fuel ⟨.virtual, className, name, signature, receiver :: args⟩ s

/-- Puts a new object on the heap and runs a constructor on it. -/
def construct (p : Program) (fuel : Nat) (className : String) (signature : Signature)
    (args : List Value) (s : State) : Option (Outcome Value) :=
  let (object, s) := s.allocate className
  (p.call fuel ⟨.special, className, constructorName, signature, object :: args⟩ s).map fun out =>
    ⟨out.result.map fun _ => object, out.state⟩

end Program

end StorageWeave.Machine
