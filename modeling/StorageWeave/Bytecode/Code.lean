import StorageWeave.Bytecode.Instruction

/-!
# Code

The code of a method is a list of instructions whose branch targets are positions in it. Splicing a
block into code moves the targets behind it, so that branches keep their meaning; a target that
would not fit a word any more cannot be moved.
-/

namespace StorageWeave.Bytecode

open Numeric

/-- The instructions of a method. -/
abbrev Code : Type := List Instruction

/-- Why code cannot be assembled or used. -/
inductive CodeError where
  /-- A branch leaves the code. -/
  | invalidTarget (position : Nat) (target : Target) (length : Nat)
  | undefinedLabel (label : String)
  | duplicateLabel (label : String)
  deriving DecidableEq, Repr

/-- The wording of an error. -/
def CodeError.message : CodeError → String
  | .invalidTarget position target length =>
    "Branch at " ++ natText position ++ " targets " ++ natText target.toNat
      ++ ", outside code of length " ++ natText length
  | .undefinedLabel label => "Undefined label: " ++ label
  | .duplicateLabel label => "Label defined twice: " ++ label

namespace Code

/-- The number of targets: positions are words of sixty-four bits. -/
def targetBound : Nat := 0x10000000000000000

/--
Moves every target `t` on by `distance t` instructions. There is no such code if a target would
leave the range of targets.
-/
def moveTargets? (code : Code) (distance : Target → Nat) : Option Code :=
  if code.all fun i => i.targets.all fun t => t.toNat + distance t < targetBound then
    some (code.map (Instruction.mapTargets fun t => t + (distance t).toUInt64))
  else none

theorem moveTargets?_zero (code : Code) : code.moveTargets? (fun _ => 0) = some code := by
  have fits : code.all fun i => i.targets.all fun t => t.toNat + 0 < targetBound := by
    simp only [List.all_eq_true, decide_eq_true_eq]
    exact fun i _ t _ => t.toNat_lt
  have shift : (fun t : Target => t + (0 : Nat).toUInt64) = id := funext fun t => t.add_zero
  rw [moveTargets?, if_pos fits, shift, funext Instruction.mapTargets_id, List.map_id']

/--
How far a target moves when `length` instructions are spliced in at `position`. A branch to the
position itself goes to the spliced block when `redirect` is set, and past it otherwise.
-/
def spliceDistance (position length : Nat) (redirect : Bool) (t : Target) : Nat :=
  if position < t.toNat ∨ (t.toNat = position ∧ redirect = false) then length else 0

/--
Splices a block of instructions without branches in before a position of the code or at its end.
There is no such code beyond the end, or if a target would leave the range of targets. An empty
block fits everywhere.
-/
def insert? (code : Code) (position : Nat) (block : Code) (redirect : Bool) : Option Code :=
  if block.isEmpty then some code
  else if position ≤ code.length then do
    let moved ← code.moveTargets? (spliceDistance position block.length redirect)
    return moved.take position ++ block ++ moved.drop position
  else none

/-- Replaces the instruction at a position of the code. -/
def replace? (code : Code) (position : Nat) (i : Instruction) : Option Code :=
  if position < code.length then some (code.set position i) else none

/-- The first branch out of code of the given length, from a position on. -/
def firstInvalid? (length : Nat) (position : Nat) : Code → Option CodeError
  | [] => none
  | i :: rest =>
    match i.targets.find? fun t => length ≤ t.toNat with
    | some t => some (.invalidTarget position t length)
    | none => firstInvalid? length (position + 1) rest

/-- Checks that every branch stays in the code. -/
def validate (code : Code) : Except CodeError Unit :=
  match firstInvalid? code.length 0 code with
  | some e => .error e
  | none => .ok ()

/-- A position on four digits or more. -/
def positionText (n : Nat) : String :=
  let t := natText n
  "".pushn '0' (4 - t.length) ++ t

/-- The listing of code, a line for each instruction. -/
def listing (code : Code) : String :=
  code.zipIdx.foldl (fun out p => out ++ positionText p.2 ++ ": " ++ p.1.render ++ "\n") ""

end Code

end StorageWeave.Bytecode
