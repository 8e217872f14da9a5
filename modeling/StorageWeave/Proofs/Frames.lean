import StorageWeave.Proofs.Execution

/-!
# What instructions do to a frame

One lemma for all instructions (`Frame.does_execute`): where control goes, which slots change, what
becomes of the operand stack, and what a call takes from it. Facts about runs are derived from it
without a look at the instructions again.
-/

namespace StorageWeave

open Bytecode

/-- Control can go from an instruction at a position to another position. -/
def Bytecode.Instruction.Continues (i : Instruction) (b b' : Nat) : Prop :=
  match i.control with
  | .fallThrough => b' = b + 1
  | .jump t => b' = t.toNat
  | .branch t => b' = t.toNat ∨ b' = b + 1
  | .indirect ts => ∃ t ∈ ts, b' = t.toNat
  | .exit => False

namespace Machine

/-- The number of operands that an instruction takes from the stack. -/
def operandCount : Instruction → Nat
  | .store _ _ => 1
  | .getField _ _ _ => 1
  | .putField _ _ _ => 2
  | .invoke kind _ _ signature => Program.operandCount kind signature
  | .dup => 1
  | .pop => 1
  | .arithmetic _ _ => 2
  | .compare _ => 2
  | .rawBits _ => 1
  | .branchIf _ _ => 1
  | .branchIfCompare _ _ _ => 2
  | .branchIfNull _ _ => 1
  | .switch _ _ => 1
  | _ => 0

namespace Frame

/--
An instruction takes a frame to another one: control has gone on, only slots that the instruction
stores have changed, none was emptied, and the stack below the operands is as it was.
-/
structure Goes (i : Instruction) (f g : Frame) : Prop where
  code : g.code = f.code
  position : i.Continues f.position g.position
  locals : ∀ slot : UInt16, slot ∉ i.storedSlots → g.locals[slot]? = f.locals[slot]?
  kept : ∀ slot : UInt16, (f.locals[slot]?).isSome → (g.locals[slot]?).isSome
  stack : ∃ pushed, g.stack = pushed ++ f.stack.drop (operandCount i)

/-- What an instruction leads to. -/
def Does (i : Instruction) (f : Frame) (s : State) : Step → Prop
  | .next g _ => Goes i f g
  | .call c g t => i = .invoke c.kind c.owner c.name c.signature ∧ t = s ∧
      c.args = (f.stack.take (operandCount i)).reverse ∧ operandCount i ≤ f.stack.length ∧
      g = { f with position := f.position + 1, stack := f.stack.drop (operandCount i) }
  | .done _ _ => i.control = .exit
  | .fault _ _ => True

variable {f g : Frame} {i : Instruction} {s t : State}

theorem does_advance (pushed : List Value) (hi : i.control = .fallThrough) :
    Does i f s (f.advance (pushed ++ f.stack.drop (operandCount i)) t) := by
  refine ⟨rfl, ?_, fun _ _ => rfl, fun _ => id, pushed, rfl⟩
  simp [Instruction.Continues, hi]

theorem does_pushResult (r : Except Fault Value) (hi : i.control = .fallThrough) :
    Does i f s (f.pushResult (f.stack.drop (operandCount i)) t r) := by
  cases r with
  | error e => trivial
  | ok v => exact does_advance [v] hi

theorem does_branch {taken : Bool} {target : Target}
    (hi : i.Continues f.position (if taken then target.toNat else f.position + 1)) :
    Does i f s (f.branch taken target (f.stack.drop (operandCount i)) t) :=
  ⟨rfl, hi, fun _ _ => rfl, fun _ => id, [], rfl⟩

theorem getElem?_insert_of_ne {locals : Locals} {slot k : UInt16} {v : Value} (h : slot ≠ k) :
    (locals.insert k v)[slot]? = locals[slot]? := by
  rw [Std.TreeMap.getElem?_insert, if_neg]
  rw [Std.LawfulEqCmp.compare_eq_iff_eq]
  exact fun e => h e.symm

theorem does_store {k : UInt16} {v : Value} (hi : i.control = .fallThrough)
    (hk : k ∈ i.storedSlots) :
    Does i f s (({ f with locals := f.locals.insert k v } : Frame).advance
      (f.stack.drop (operandCount i)) t) := by
  refine ⟨rfl, by simp [Instruction.Continues, hi], fun slot hslot => ?_, fun slot hslot => ?_,
    [], rfl⟩
  · apply getElem?_insert_of_ne
    rintro rfl
    exact hslot hk
  · by_cases hne : slot = k
    · simp [hne]
    · simpa only [getElem?_insert_of_ne hne] using hslot

theorem mem_storedSlots_store (kind : ValueKind) (slot : UInt16) :
    slot ∈ (Instruction.store kind slot).storedSlots := by
  simp only [Instruction.storedSlots]
  split <;> simp

theorem continues_branch {taken : Bool} {target : Target} {b : Nat}
    (hi : i.control = .branch target) :
    i.Continues b (if taken then target.toNat else b + 1) := by
  cases taken <;> simp [Instruction.Continues, hi]

/-- **What instructions do** to the frame that executes them. -/
theorem does_execute (f : Frame) (i : Instruction) (s : State) : Does i f s (f.execute i s) := by
  obtain ⟨code, position, stack, locals, remaining⟩ := f
  cases i with
  | load kind slot =>
    simp only [execute.eq_def]
    cases locals[slot]? with
    | none => trivial
    | some v => exact does_advance [v] rfl
  | store kind slot =>
    cases stack with
    | nil => trivial
    | cons v stack => exact does_store rfl (mem_storedSlots_store kind slot)
  | increment slot delta =>
    simp only [execute.eq_def]
    cases locals[slot]? with
    | none => trivial
    | some v =>
      cases v with
      | int x => exact does_store rfl List.mem_cons_self
      | _ => trivial
  | const value => exact does_advance [.ofConstant value] rfl
  | new className => exact does_advance [(s.allocate className).1] rfl
  | checkCast className => exact does_advance [] rfl
  | getField owner name type =>
    cases stack with
    | nil => trivial
    | cons object stack => exact does_advance [(s.field? object name).getD (.ofType type)] rfl
  | putField owner name type =>
    rcases stack with _ | ⟨v, _ | ⟨object, stack⟩⟩
    · trivial
    · trivial
    · simp only [execute.eq_def]
      cases s.place? object with
      | none => trivial
      | some o => exact does_advance [] rfl
  | dup =>
    cases stack with
    | nil => trivial
    | cons v stack => exact does_advance [v, v] rfl
  | pop =>
    cases stack with
    | nil => trivial
    | cons v stack => exact does_advance [] rfl
  | rawBits kind =>
    cases stack with
    | nil => trivial
    | cons v stack => exact does_pushResult _ rfl
  | arithmetic op kind =>
    rcases stack with _ | ⟨b, _ | ⟨a, stack⟩⟩
    · trivial
    · trivial
    · exact does_pushResult _ rfl
  | compare kind =>
    rcases stack with _ | ⟨b, _ | ⟨a, stack⟩⟩
    · trivial
    · trivial
    · exact does_pushResult _ rfl
  | goto target => exact does_branch rfl
  | branchIf condition target =>
    rcases stack with _ | ⟨v, stack⟩
    · trivial
    · simp only [execute.eq_def]
      cases v.toInt with
      | error e => trivial
      | ok x => exact does_branch (continues_branch rfl)
  | branchIfCompare kind condition target =>
    rcases stack with _ | ⟨b, _ | ⟨a, stack⟩⟩
    · trivial
    · trivial
    · simp only [execute.eq_def]
      cases comparisonHolds kind condition a b with
      | error e => trivial
      | ok taken => exact does_branch (continues_branch rfl)
  | branchIfNull isNull target =>
    cases stack with
    | nil => trivial
    | cons v stack => exact does_branch (continues_branch rfl)
  | switch targets default =>
    rcases stack with _ | ⟨v, stack⟩
    · trivial
    · simp only [execute.eq_def]
      cases v.toInt with
      | error e => trivial
      | ok x => exact does_branch ⟨_, switchTarget_mem targets default x, rfl⟩
  | invoke kind owner name signature =>
    show Does _ _ s (if stack.length < Program.operandCount kind signature then _ else _)
    split
    · trivial
    · next hcount => exact ⟨rfl, rfl, rfl, Nat.le_of_not_lt hcount, rfl⟩
  | getStatic owner name type => trivial
  | putStatic owner name type => trivial
  | throw => trivial
  | «return» kind =>
    cases kind with
    | none => exact rfl
    | some k =>
      cases stack with
      | nil => trivial
      | cons v stack => exact rfl

/-- A step that is no fault executes the instruction at its position. -/
theorem exists_does_step (h : ∀ e, f.step s ≠ .fault e s) :
    ∃ i remaining, f.code[f.position]? = some i ∧
      Does i { f with remaining } s (f.step s) := by
  unfold step at h ⊢
  cases hr : f.remaining with
  | zero => simp [hr] at h
  | succ remaining =>
    rcases hi : f.code[f.position]? with _ | i
    · simp [hr, hi] at h
    · exact ⟨i, remaining, rfl, does_execute _ i s⟩

theorem goes_of_step (h : f.step s = .next g t) :
    ∃ i, f.code[f.position]? = some i ∧ Goes i f g := by
  obtain ⟨i, remaining, hi, hdoes⟩ := exists_does_step (f := f) (s := s) (by simp [h])
  rw [h] at hdoes
  exact ⟨i, hi, hdoes.code, hdoes.position, hdoes.locals, hdoes.kept, hdoes.stack⟩

/-- The call that a step hands out, and the frame that waits for its result. -/
theorem of_step_call {c : Call} (h : f.step s = .call c g t) :
    f.code[f.position]? = some (.invoke c.kind c.owner c.name c.signature) ∧ t = s ∧
      ∃ count, count = Program.operandCount c.kind c.signature ∧ count ≤ f.stack.length ∧
        c.args = (f.stack.take count).reverse ∧ g.stack = f.stack.drop count ∧
        g.code = f.code ∧ g.position = f.position + 1 ∧ g.locals = f.locals := by
  obtain ⟨i, remaining, hi, hdoes⟩ := exists_does_step (f := f) (s := s) (by simp [h])
  rw [h] at hdoes
  obtain ⟨rfl, rfl, hargs, hcount, rfl⟩ := hdoes
  exact ⟨hi, rfl, _, rfl, hcount, hargs, rfl, rfl, rfl, rfl⟩

/-- A method is left by an instruction for it. -/
theorem exit_of_step {v : Option Value} (h : f.step s = .done v t) :
    ∃ i, f.code[f.position]? = some i ∧ i.control = .exit := by
  obtain ⟨i, remaining, hi, hdoes⟩ := exists_does_step (f := f) (s := s) (by simp [h])
  rw [h] at hdoes
  exact ⟨i, hi, hdoes⟩

end Frame

end Machine

end StorageWeave
