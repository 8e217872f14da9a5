import StorageWeave.Weaving.Error

/-!
# Where the prologue of a constructor goes

The prologue of an entry runs after the constructor of the superclass has returned. That call takes
the receiver that the first instruction loads, so it is the instruction that brings the operand
stack back to height zero. The search follows the height over all paths from the start, with a list
of positions still to visit, the newest first.

A loop that lets the stack grow makes the search endless, unless it meets an error at some height. A
search without an end has no result.
-/

namespace StorageWeave.Weaving

open Bytecode

namespace Injection

/-- What the search is about. -/
structure Problem where
  className : String
  method : String
  code : Array Instruction
  superclass : String
  /-- The slot of the caller, which may not be written before the prologue. -/
  callerSlot : UInt16
  deriving DecidableEq, Repr

/-- A position in the code and the height of the stack before it. -/
structure Visit where
  position : Nat
  height : Nat
  deriving DecidableEq, Repr

/-- A set of visits to code: for each position the heights, as the bits of a number. -/
structure VisitSet where
  heights : Array Nat
  deriving DecidableEq, Repr

namespace VisitSet

/-- No visits to code of a length. -/
def empty (length : Nat) : VisitSet := ⟨Array.replicate length 0⟩

/-- Whether a visit has been made. -/
def contains (s : VisitSet) (v : Visit) : Bool :=
  ((s.heights[v.position]?).getD 0).testBit v.height

/-- Adds a visit to a position of the code. -/
def insert (s : VisitSet) (v : Visit) : VisitSet :=
  ⟨s.heights.modify v.position (· ||| 1 <<< v.height)⟩

@[simp] theorem size_insert (s : VisitSet) (v : Visit) :
    (s.insert v).heights.size = s.heights.size := by
  simp [insert]

@[simp] theorem contains_empty (length : Nat) (v : Visit) : (empty length).contains v = false := by
  grind [contains, empty]

/-- A visit that was added to the set is in it, and no other one has come in. -/
theorem contains_insert (s : VisitSet) (v w : Visit) (bound : v.position < s.heights.size) :
    (s.insert v).contains w = (decide (v = w) || s.contains w) := by
  obtain ⟨i, a⟩ := v
  obtain ⟨j, b⟩ := w
  by_cases same : i = j
  · subst same
    simp_all [contains, insert, Array.getElem_modify, Nat.testBit_or, Nat.one_shiftLeft,
      -Nat.testBit_shiftLeft, Nat.testBit_two_pow, Bool.or_comm]
  · simp [contains, insert, same, Array.getElem?_modify]

end VisitSet

/-- The state of the search. -/
structure Search where
  /-- Visits still to make, the next first. -/
  pending : List Visit
  visited : VisitSet
  /-- Positions of superclass constructor calls found. -/
  calls : List Nat := []
  deriving DecidableEq, Repr

/-- Where a visit leads. -/
inductive Outcome where
  /-- The superclass is constructed here. -/
  | call
  /-- To further visits, the next first. -/
  | continue (visits : List Visit)
  deriving DecidableEq, Repr

namespace Problem

/-- A fault of the constructor. -/
def malformed (p : Problem) (fault : ConstructorFault) : WeaveError :=
  .malformedConstructor p.className p.method fault

/-- The visits after an instruction that leaves the stack at a height. -/
def successors (i : Instruction) (position height : Nat) : List Visit :=
  match i.control with
  | .jump target => [⟨target.toNat, height⟩]
  | .branch target => [⟨target.toNat, height⟩, ⟨position + 1, height⟩]
  | _ => [⟨position + 1, height⟩]

/-- Whether control leaves by a computed jump or out of the method. -/
def isUnsupported (i : Instruction) : Bool :=
  match i.control with
  | .indirect _ => true
  | .exit => true
  | _ => false

/-- Visits one instruction. -/
def visit (p : Problem) (v : Visit) : Except WeaveError Outcome :=
  match p.code[v.position]? with
  | none => .error (p.malformed .endOfCode)
  | some i =>
    if p.callerSlot ∈ i.storedSlots then
      .error (p.malformed (.callerSlotWritten p.callerSlot v.position))
    else if isUnsupported i then
      .error (.unsupportedControlFlow p.className p.method v.position)
    else if v.height < i.stackEffect.pops then
      .error (p.malformed (.stackUnderflow v.position))
    else
      let height := v.height - i.stackEffect.pops + i.stackEffect.pushes
      if height = 0 then
        if i.isConstructorCallOf p.superclass then .ok .call
        else .error (p.malformed (.receiverConsumed v.position))
      else .ok (.continue (successors i v.position height))

/-- Makes the next visit; `none` when there is none left. -/
def step (p : Problem) (s : Search) : Except WeaveError (Option Search) :=
  match s.pending with
  | [] => .ok none
  | v :: rest =>
    if s.visited.contains v then .ok (some { s with pending := rest })
    else do
      match ← p.visit v with
      | .call =>
        return some ⟨rest, s.visited.insert v,
          if v.position ∈ s.calls then s.calls else v.position :: s.calls⟩
      | .continue next => return some ⟨next ++ rest, s.visited.insert v, s.calls⟩

/-- Searches until no visit is left to make, and returns the calls found. -/
def search (p : Problem) (s : Search) : Option (Except WeaveError (List Nat)) :=
  match p.step s with
  | .error e => some (.error e)
  | .ok none => some (.ok s.calls)
  | .ok (some s) => p |>.search s
partial_fixpoint

/-- The search before its first step: after the receiver has been loaded. -/
def start (p : Problem) : Search := { pending := [⟨1, 1⟩], visited := .empty p.code.size }

/-- The position after the one call of the superclass constructor. -/
def choose (p : Problem) (calls : List Nat) : Except WeaveError Nat :=
  match calls.mergeSort (· ≤ ·) with
  | [] => .error (p.malformed .noSuperclassCall)
  | [call] => .ok (call + 1)
  | first :: second :: _ => .error (p.malformed (.severalSuperclassCalls first second))

/-- The position at which the prologue of a constructor is spliced in. -/
def find (p : Problem) : Except WeaveError Nat :=
  match (p.code[0]? : Option Instruction) with
  | some (.load .reference 0) => do
    p.choose (← (p.search p.start).getD (.error (.endlessSearch p.className p.method)))
  | _ => .error (p.malformed .noReceiver)

end Problem

end Injection

end StorageWeave.Weaving
