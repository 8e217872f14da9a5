import StorageWeave.Machine.Interpreter
import StorageWeave.Proofs.Heap

/-!
# Running generated code

Generated code has no loops: an activation of it only moves forward, so it never runs out of steps
when its code is no longer than the number of steps of an activation. This module reasons about
such code in pieces.

* `p.Flows code a b`: an activation of `code` at the point `a` comes to the point `b`.
* `p.Completes code a o`: an activation of `code` at the point `a` ends with the outcome `o`.
* `p.Gives c s o`: the call `c` in the state `s` has the outcome `o`, whatever frames wait for it.

Blocks of plain instructions are run by `Point.exec?`, which is the machine's own `Frame.execute`
repeated, so that a concrete block is a computation.
-/

namespace StorageWeave.Machine

open Bytecode Weaving

namespace Progress

/-- The state that a thread has come to. -/
def state : Progress → State
  | .running t => t.state
  | .ended o => o.state

theorem state_returning (v : Option Value) (callers : List Frame) (s : State) :
    (returning v callers s).state = s := by
  cases callers <;> rfl

/-- Leaves an activation with an outcome: hands the result on, or ends all frames with the fault. -/
def leaving (o : Outcome (Option Value)) (callers : List Frame) : Progress :=
  match o.result with
  | .ok value => .returning value callers o.state
  | .error cause => .faulting cause o.state

theorem leaving_nil (o : Outcome (Option Value)) : leaving o [] = .ended o := by
  obtain ⟨_ | _, _⟩ := o <;> rfl

end Progress

namespace Program

variable {p : Program}

/-! ## Several steps -/

/-- What a thread has come to after a number of steps; one that has ended stays. -/
def after (p : Program) : Nat → Progress → Progress
  | 0, x => x
  | _ + 1, .ended o => .ended o
  | n + 1, .running t => p.after n (p.step t)

@[simp] theorem after_ended (n : Nat) (o : Outcome (Option Value)) :
    p.after n (.ended o) = .ended o := by
  cases n <;> rfl

theorem after_add (m n : Nat) (x : Progress) : p.after (m + n) x = p.after n (p.after m x) := by
  induction m generalizing x with
  | zero => rw [Nat.zero_add, after]
  | succ m ih =>
    rw [Nat.succ_add]
    cases x with
    | ended o => simp
    | running t => exact ih (p.step t)

theorem run_eq_some_iff {n : Nat} {x : Progress} {o : Outcome (Option Value)} :
    p.run n x = some o ↔ p.after n x = .ended o := by
  induction n generalizing x with
  | zero => cases x <;> simp [run, after]
  | succ n ih =>
    cases x with
    | ended o => simp [run]
    | running t => exact ih

/-- A thread comes from one configuration to another. -/
def Leads (p : Program) (x y : Progress) : Prop := ∃ n, p.after n x = y

theorem Leads.refl (x : Progress) : p.Leads x x := ⟨0, rfl⟩

theorem Leads.trans {x y z : Progress} (h₁ : p.Leads x y) (h₂ : p.Leads y z) : p.Leads x z := by
  obtain ⟨m, rfl⟩ := h₁
  obtain ⟨n, rfl⟩ := h₂
  exact ⟨m + n, after_add m n x⟩

theorem Leads.step (t : Thread) : p.Leads (.running t) (p.step t) := ⟨1, rfl⟩

theorem step_stepLimit (p : Program) {f : Frame} (callers : List Frame) (s : State)
    (hremaining : f.remaining = 0) : p.step ⟨f, callers, s⟩ = .faulting .stepLimit s := by
  simp only [step, Frame.step, hremaining]

theorem step_fellOff (p : Program) {f : Frame} {remaining : Nat} (callers : List Frame) (s : State)
    (hremaining : f.remaining = remaining + 1) (hi : f.code[f.position]? = none) :
    p.step ⟨f, callers, s⟩ = .faulting .fellOffCode s := by
  simp only [step, Frame.step, hremaining, hi]

theorem step_eq (p : Program) {f : Frame} {i : Instruction} {remaining : Nat}
    (callers : List Frame) (s : State) (hremaining : f.remaining = remaining + 1)
    (hi : f.code[f.position]? = some i) :
    p.step ⟨f, callers, s⟩ =
      match ({ f with remaining } : Frame).execute i s with
      | .next f s => .running ⟨f, callers, s⟩
      | .call c f s => p.enter c (f :: callers) s
      | .done value s => .returning value callers s
      | .fault e s => .faulting e s := by
  have hstep : f.step s = ({ f with remaining } : Frame).execute i s := by
    simp only [Frame.step, hremaining, hi]
  have hmatch : p.step ⟨f, callers, s⟩ =
      match f.step s with
      | .next f s => .running ⟨f, callers, s⟩
      | .call c f s => p.enter c (f :: callers) s
      | .done value s => .returning value callers s
      | .fault e s => .faulting e s := rfl
  rw [hmatch, hstep]

end Program

/-! ## Points of an activation -/

/-- Where an activation is: the next position, the operand stack, the local slots and the state. -/
structure Point where
  position : Nat
  stack : List Value
  locals : Locals
  state : State

namespace Point

/-- The frame of an activation of no code at a point. -/
def frame (a : Point) : Frame := ⟨#[], a.position, a.stack, a.locals, 0⟩

/-- The thread of an activation of `code` at a point, with a number of steps left. -/
def thread (a : Point) (code : Code) (remaining : Nat) (callers : List Frame) : Thread :=
  ⟨⟨code.toArray, a.position, a.stack, a.locals, remaining⟩, callers, a.state⟩

end Point

/--
What an instruction leads to from a frame `f` in the state `s`, and from the same frame with other
code and another number of steps left in the state `s'`.
-/
inductive Frame.StepRel (R : State → State → Prop) (f : Frame) (i : Instruction) (s s' : State)
    (code : Array Instruction) (remaining : Nat) : Step → Step → Prop
  | next {g : Frame} {t t' : State} : g.code = f.code → g.remaining = f.remaining → R t t' →
      StepRel R f i s s' code remaining (.next g t) (.next { g with code, remaining } t')
  | call {c : Call} {g : Frame} : g.code = f.code → g.remaining = f.remaining →
      i = .invoke c.kind c.owner c.name c.signature →
      StepRel R f i s s' code remaining (.call c g s) (.call c { g with code, remaining } s')
  | done {v : Option Value} {t t' : State} : R t t' →
      StepRel R f i s s' code remaining (.done v t) (.done v t')
  | fault {e : Fault} {t t' : State} : R t t' →
      StepRel R f i s s' code remaining (.fault e t) (.fault e t')

/-- An instruction finds the same in two states, and what it does to them keeps a relation. -/
def Frame.Alike (R : State → State → Prop) (f : Frame) (i : Instruction) (s s' : State) : Prop :=
  match i, f.stack with
  | .getField _ name _, object :: _ => s'.field? object name = s.field? object name
  | .putField _ name _, value :: object :: _ => s'.place? object = s.place? object ∧
      ∀ o, s.place? object = some o → R (s.write o name value) (s'.write o name value)
  | .new className, _ => s'.heap.size = s.heap.size ∧
      R (s.allocate className).2 (s'.allocate className).2
  | _, _ => True

theorem Frame.Alike.refl (f : Frame) (i : Instruction) (s : State) : f.Alike Eq i s s := by
  unfold Alike
  split <;> simp

/--
What an instruction leads to from a frame `f` in the state `s`, and with its targets moved by `τ`
from a frame `f'` in the state `s'`.
-/
inductive Frame.Mirrors (R : State → State → Prop) (τ : Target → Target) (f f' : Frame)
    (i : Instruction) (s s' : State) : Step → Step → Prop
  | next {b b' : Nat} {stack : List Value} {locals : Locals} {t t' : State} :
      (b = f.position + 1 ∧ b' = f'.position + 1 ∨
        ∃ x ∈ i.targets, b = x.toNat ∧ b' = (τ x).toNat) → R t t' →
      Mirrors R τ f f' i s s' (.next { f with position := b, stack, locals } t)
        (.next { f' with position := b', stack, locals } t')
  | call {c : Call} {stack : List Value} {locals : Locals} :
      i = .invoke c.kind c.owner c.name c.signature →
      Mirrors R τ f f' i s s' (.call c { f with position := f.position + 1, stack, locals } s)
        (.call c { f' with position := f'.position + 1, stack, locals } s')
  | done {v : Option Value} {t t' : State} : R t t' →
      Mirrors R τ f f' i s s' (.done v t) (.done v t')
  | fault {e : Fault} {t t' : State} : R t t' →
      Mirrors R τ f f' i s s' (.fault e t) (.fault e t')

namespace Frame

/-- A computed jump goes to one of its targets. -/
theorem switchTarget_mem (targets : List Target) (default : Target) (v : Int32) :
    switchTarget targets default v ∈ targets ++ [default] := by
  unfold switchTarget
  split
  · simp
  · rcases hget : targets[v.toInt.toNat]? with _ | t
    · simp
    · simp [List.mem_of_getElem? hget]

theorem switchTarget_map (τ : Target → Target) (targets : List Target) (default : Target)
    (v : Int32) :
    switchTarget (targets.map τ) (τ default) v = τ (switchTarget targets default v) := by
  unfold switchTarget
  split
  · rfl
  · rw [List.getElem?_map]
    cases targets[v.toInt.toNat]? <;> rfl

section Mirrors

variable {R : State → State → Prop} {τ : Target → Target} {f f' : Frame} {i : Instruction}
  {s s' : State}

theorem Mirrors.advance {stack : List Value} {locals : Locals} {t t' : State} (ht : R t t') :
    Mirrors R τ f f' i s s' (({ f with locals } : Frame).advance stack t)
      (({ f' with locals } : Frame).advance stack t') :=
  .next (.inl ⟨rfl, rfl⟩) ht

theorem Mirrors.pushResult {stack : List Value} {locals : Locals} (hs : R s s')
    (r : Except Fault Value) :
    Mirrors R τ f f' i s s' (({ f with locals } : Frame).pushResult stack s r)
      (({ f' with locals } : Frame).pushResult stack s' r) := by
  cases r with
  | error e => exact .fault hs
  | ok v => exact .advance hs

theorem Mirrors.branch {target : Target} {stack : List Value} {locals : Locals} (hs : R s s')
    (taken : Bool) (ht : target ∈ i.targets) :
    Mirrors R τ f f' i s s' (({ f with locals } : Frame).branch taken target stack s)
      (({ f' with locals } : Frame).branch taken (τ target) stack s') := by
  cases taken with
  | false => exact .next (.inl ⟨rfl, rfl⟩) hs
  | true => exact .next (.inr ⟨target, ht, rfl, rfl⟩) hs

/--
Instructions do not look at the code they stand in, nor at the number of steps left, and only field
accesses and allocations look at the state. Where they stand matters for the next position only.
-/
theorem execute_mirrors (hstack : f'.stack = f.stack) (hlocals : f'.locals = f.locals)
    (hs : R s s') (hi : f.Alike R i s s') :
    f.Mirrors R τ f' i s s' (f.execute i s) (f'.execute (i.mapTargets τ) s') := by
  obtain ⟨code, position, stack, locals, remaining⟩ := f
  obtain ⟨code', position', stack', locals', remaining'⟩ := f'
  obtain rfl : stack = stack' := hstack.symm
  obtain rfl : locals = locals' := hlocals.symm
  cases i with
  | invoke kind owner name signature =>
    simp only [execute.eq_def, makeCall, Instruction.mapTargets]
    generalize signature.params.length + (if kind.hasReceiver then 1 else 0) = count
    split
    · exact .fault hs
    · exact .call rfl
  | load _ slot =>
    simp only [execute.eq_def, Instruction.mapTargets]
    split
    · exact .advance hs
    · exact .fault hs
  | increment slot delta =>
    simp only [execute.eq_def, Instruction.mapTargets]
    split
    · exact .advance hs
    · exact .fault hs
    · exact .fault hs
  | const _ | checkCast _ => exact .advance hs
  | goto _ => exact .branch hs true List.mem_cons_self
  | getStatic _ _ _ | putStatic _ _ _ | throw => exact .fault hs
  | «return» kind =>
    cases kind with
    | none => exact .done hs
    | some _ =>
      cases stack with
      | nil => exact .fault hs
      | cons _ _ => exact .done hs
  | store _ _ | dup | pop =>
    cases stack with
    | nil => exact .fault hs
    | cons _ _ => exact .advance hs
  | branchIfNull _ _ =>
    cases stack with
    | nil => exact .fault hs
    | cons _ _ => exact .branch hs _ List.mem_cons_self
  | rawBits kind =>
    cases stack with
    | nil => exact .fault hs
    | cons _ _ => exact .pushResult hs _
  | branchIf _ _ =>
    rcases stack with _ | ⟨v, stack⟩
    · exact .fault hs
    · simp only [execute.eq_def, Instruction.mapTargets]
      split
      · exact .branch hs _ List.mem_cons_self
      · exact .fault hs
  | switch targets default =>
    rcases stack with _ | ⟨v, stack⟩
    · exact .fault hs
    · simp only [execute.eq_def, Instruction.mapTargets, switchTarget_map]
      split
      · exact .branch hs true (switchTarget_mem targets default _)
      · exact .fault hs
  | arithmetic _ _ | compare _ =>
    rcases stack with _ | ⟨b, _ | ⟨a, stack⟩⟩
    · exact .fault hs
    · exact .fault hs
    · exact .pushResult hs _
  | branchIfCompare kind condition _ =>
    rcases stack with _ | ⟨b, _ | ⟨a, stack⟩⟩
    · exact .fault hs
    · exact .fault hs
    · simp only [execute.eq_def, Instruction.mapTargets]
      split
      · exact .branch hs _ List.mem_cons_self
      · exact .fault hs
  | getField _ name type =>
    rcases stack with _ | ⟨object, stack⟩
    · exact .fault hs
    · have hfield : s'.field? object name = s.field? object name := hi
      simp only [execute.eq_def, Instruction.mapTargets, hfield]
      exact .advance hs
  | putField _ name _ =>
    rcases stack with _ | ⟨v, _ | ⟨object, stack⟩⟩
    · exact .fault hs
    · exact .fault hs
    · obtain ⟨hplace, hwrite⟩ := hi
      simp only [execute.eq_def, Instruction.mapTargets, hplace]
      cases hplaced : s.place? object with
      | none => exact .fault hs
      | some o => exact .advance (hwrite o hplaced)
  | new className =>
    obtain ⟨hsize, hallocate⟩ := hi
    simp only [execute.eq_def, Instruction.mapTargets]
    rw [show (s'.allocate className).1 = (s.allocate className).1 from
      congrArg Value.object hsize]
    exact .advance hallocate

end Mirrors

/-- An instruction does in other code, with other steps left, what it does where it stands. -/
theorem execute_rel {R : State → State → Prop} {f : Frame} {code : Array Instruction}
    {r : Nat} {i : Instruction} {s s' : State} (hs : R s s') (hi : f.Alike R i s s') :
    f.StepRel R i s s' code r (f.execute i s)
      (({ f with code, remaining := r } : Frame).execute i s') := by
  have hmirrors : f.Mirrors R id { f with code, remaining := r } i s s' (f.execute i s) _ :=
    execute_mirrors rfl rfl hs hi
  rw [Instruction.mapTargets_id] at hmirrors
  revert hmirrors
  generalize f.execute i s = x
  generalize ({ f with code, remaining := r } : Frame).execute i s' = y
  rintro (⟨⟨rfl, rfl⟩ | ⟨t, -, rfl, rfl⟩, ht⟩ | hcall | ht | ht)
  · exact .next rfl rfl ht
  · exact .next rfl rfl ht
  · exact .call rfl rfl hcall
  · exact .done ht
  · exact .fault ht

end Frame

/-- The step with its frame put into another activation. -/
def Step.within (code : Array Instruction) (remaining : Nat) : Step → Step
  | .next f s => .next { f with code, remaining } s
  | .call c f s => .call c { f with code, remaining } s
  | .done v s => .done v s
  | .fault e s => .fault e s

theorem Frame.execute_within (f : Frame) (code : Array Instruction) (r : Nat) (i : Instruction)
    (s : State) :
    ({ f with code, remaining := r } : Frame).execute i s = (f.execute i s).within code r := by
  have hrel : f.StepRel Eq i s s code r (f.execute i s) _ := execute_rel rfl (Alike.refl f i s)
  revert hrel
  generalize f.execute i s = x
  generalize ({ f with code, remaining := r } : Frame).execute i s = y
  rintro (⟨-, -, rfl⟩ | - | rfl | rfl) <;> rfl

/-! ## Pieces of code -/

/-- A block of instructions stands at a position of the code. -/
def Placed (code : Code) (position : Nat) (block : Code) : Prop :=
  ∃ rest, code.drop position = block ++ rest

namespace Placed

variable {code block block₁ block₂ : Code} {n : Nat} {i : Instruction}

theorem of_append (pre block post : Code) : Placed (pre ++ (block ++ post)) pre.length block :=
  ⟨post, by simp⟩

theorem left (h : Placed code n (block₁ ++ block₂)) : Placed code n block₁ := by
  obtain ⟨rest, hr⟩ := h
  exact ⟨block₂ ++ rest, by rw [hr, List.append_assoc]⟩

theorem right (h : Placed code n (block₁ ++ block₂)) :
    Placed code (n + block₁.length) block₂ := by
  obtain ⟨rest, hr⟩ := h
  refine ⟨rest, ?_⟩
  rw [← List.drop_drop, hr, List.append_assoc, List.drop_left]

theorem head (h : Placed code n (i :: block)) : code[n]? = some i := by
  obtain ⟨rest, hr⟩ := h
  have := congrArg (fun l : Code => l[0]?) hr
  simpa using this

theorem tail (h : Placed code n (i :: block)) : Placed code (n + 1) block :=
  right (show Placed code n ([i] ++ block) from h)

theorem getElem? (h : Placed code n block) {k : Nat} (hk : k < block.length) :
    code[n + k]? = block[k]? := by
  obtain ⟨rest, hrest⟩ := h
  rw [← List.getElem?_drop, hrest, List.getElem?_append_left hk]

end Placed

namespace Program

variable {p : Program} {code : Code} {a b c : Point} {o : Outcome (Option Value)}

/-- An activation of `code` at `a` comes to `b`, moving forward. -/
def Flows (p : Program) (code : Code) (a b : Point) : Prop :=
  ∀ callers r, Frame.stepLimit ≤ a.position + r →
    ∃ r', Frame.stepLimit ≤ b.position + r' ∧
      p.Leads (.running (a.thread code r callers)) (.running (b.thread code r' callers))

/-- An activation of `code` at `a` ends with the outcome `o`. -/
def Completes (p : Program) (code : Code) (a : Point) (o : Outcome (Option Value)) : Prop :=
  ∀ callers r, Frame.stepLimit ≤ a.position + r →
    p.Leads (.running (a.thread code r callers)) (.leaving o callers)

/-- A call has an outcome, whatever frames wait for it. -/
def Gives (p : Program) (c : Call) (s : State) (o : Outcome (Option Value)) : Prop :=
  ∀ callers, p.Leads (p.enter c callers s) (.leaving o callers)

theorem Flows.refl (a : Point) : p.Flows code a a := fun _ r hr => ⟨r, hr, .refl _⟩

theorem Flows.trans (h₁ : p.Flows code a b) (h₂ : p.Flows code b c) : p.Flows code a c := by
  intro callers r hr
  obtain ⟨r₁, hr₁, l₁⟩ := h₁ callers r hr
  obtain ⟨r₂, hr₂, l₂⟩ := h₂ callers r₁ hr₁
  exact ⟨r₂, hr₂, l₁.trans l₂⟩

theorem Flows.completes (h₁ : p.Flows code a b) (h₂ : p.Completes code b o) :
    p.Completes code a o := by
  intro callers r hr
  obtain ⟨r₁, hr₁, l₁⟩ := h₁ callers r hr
  exact l₁.trans (h₂ callers r₁ hr₁)

/-- A call that has an outcome ends with it, given enough steps. -/
theorem Gives.call {c : Call} {s : State} (h : p.Gives c s o) :
    ∃ fuel, p.call fuel c s = some o := by
  obtain ⟨n, hn⟩ := h []
  rw [Progress.leaving_nil] at hn
  exact ⟨n, run_eq_some_iff.2 hn⟩

/-- A step of an activation of a list of instructions. -/
theorem step_thread {i : Instruction} (hi : code[a.position]? = some i) {callers : List Frame}
    {r : Nat} : p.step (a.thread code (r + 1) callers) =
      match (a.frame.execute i a.state).within code.toArray r with
      | .next f s => .running ⟨f, callers, s⟩
      | .call c f s => p.enter c (f :: callers) s
      | .done v s => .returning v callers s
      | .fault e s => .faulting e s := by
  rw [← Frame.execute_within]
  exact step_eq p callers a.state rfl (by simpa [Point.thread] using hi)

/-- An activation that has not come to the end of short code may execute one more instruction. -/
theorem exists_remaining {i : Instruction} (hi : code[a.position]? = some i)
    (hc : code.length ≤ Frame.stepLimit) {r : Nat} (hr : Frame.stepLimit ≤ a.position + r) :
    ∃ r', r = r' + 1 := by
  have := (List.getElem?_eq_some_iff.1 hi).1
  exact ⟨r - 1, by omega⟩

/-- One instruction that goes on further down. -/
theorem flows_next {i : Instruction} (hc : code.length ≤ Frame.stepLimit)
    (hi : code[a.position]? = some i) (hx : a.frame.execute i a.state = .next b.frame b.state)
    (hb : a.position < b.position) : p.Flows code a b := by
  intro callers r hr
  obtain ⟨r, rfl⟩ := exists_remaining hi hc hr
  refine ⟨r, by omega, ?_⟩
  have := Leads.step (p := p) (a.thread code (r + 1) callers)
  rw [step_thread hi, hx] at this
  exact this

/-- One instruction that leaves the method. -/
theorem completes_done {i : Instruction} {v : Option Value} {s : State}
    (hc : code.length ≤ Frame.stepLimit) (hi : code[a.position]? = some i)
    (hx : a.frame.execute i a.state = .done v s) : p.Completes code a ⟨.ok v, s⟩ := by
  intro callers r hr
  obtain ⟨r, rfl⟩ := exists_remaining hi hc hr
  have := Leads.step (p := p) (a.thread code (r + 1) callers)
  rw [step_thread hi, hx] at this
  exact this

/-- One instruction that fails. -/
theorem completes_fault {i : Instruction} {e : Fault} {s : State}
    (hc : code.length ≤ Frame.stepLimit) (hi : code[a.position]? = some i)
    (hx : a.frame.execute i a.state = .fault e s) : p.Completes code a ⟨.error e, s⟩ := by
  intro callers r hr
  obtain ⟨r, rfl⟩ := exists_remaining hi hc hr
  have := Leads.step (p := p) (a.thread code (r + 1) callers)
  rw [step_thread hi, hx] at this
  exact this

/-! ## Calls -/

/-- The number of operands that a call takes. -/
def operandCount (kind : InvokeKind) (signature : Signature) : Nat :=
  signature.params.length + if kind.hasReceiver then 1 else 0

/-- The call that an instruction hands out, with its arguments on the stack, the last on top. -/
theorem execute_invoke {kind : InvokeKind} {owner name : String} {signature : Signature}
    {args rest : List Value} {n : Nat} {locals : Locals} {s : State}
    (hargs : args.length = operandCount kind signature) :
    (⟨n, args.reverse ++ rest, locals, s⟩ : Point).frame.execute
        (.invoke kind owner name signature) s =
      .call ⟨kind, owner, name, signature, args⟩ (⟨n + 1, rest, locals, s⟩ : Point).frame s := by
  have hlen : args.reverse.length = operandCount kind signature := by simpa using hargs
  have enough : ¬ (args.reverse ++ rest).length < operandCount kind signature := by
    rw [List.length_append]; omega
  refine (if_neg enough).trans ?_
  show Step.call ⟨kind, owner, name, signature,
      ((args.reverse ++ rest).take (operandCount kind signature)).reverse⟩
    ⟨#[], n + 1, (args.reverse ++ rest).drop (operandCount kind signature), locals, 0⟩ s = _
  rw [List.take_left' hlen, List.drop_left' hlen, List.reverse_reverse]
  rfl

/-- A call instruction whose call returns. -/
theorem flows_invoke {kind : InvokeKind} {owner name : String} {signature : Signature}
    (args rest : List Value) {n : Nat} {locals : Locals} {s s' : State} {v : Option Value}
    (hc : code.length ≤ Frame.stepLimit)
    (hi : code[n]? = some (.invoke kind owner name signature))
    (hargs : args.length = operandCount kind signature)
    (hg : p.Gives ⟨kind, owner, name, signature, args⟩ s ⟨.ok v, s'⟩) :
    p.Flows code ⟨n, args.reverse ++ rest, locals, s⟩ ⟨n + 1, v.toList ++ rest, locals, s'⟩ := by
  intro callers r hr
  obtain ⟨r, rfl⟩ := exists_remaining hi hc hr
  refine ⟨r, by simp only at hr ⊢; omega, ?_⟩
  have := Leads.step (p := p)
    ((⟨n, args.reverse ++ rest, locals, s⟩ : Point).thread code (r + 1) callers)
  rw [step_thread hi, execute_invoke hargs] at this
  exact this.trans (hg _)

/-- A call instruction whose call fails. -/
theorem completes_invoke {kind : InvokeKind} {owner name : String} {signature : Signature}
    (args rest : List Value) {n : Nat} {locals : Locals} {s s' : State} {e : Fault}
    (hc : code.length ≤ Frame.stepLimit)
    (hi : code[n]? = some (.invoke kind owner name signature))
    (hargs : args.length = operandCount kind signature)
    (hg : p.Gives ⟨kind, owner, name, signature, args⟩ s ⟨.error e, s'⟩) :
    p.Completes code ⟨n, args.reverse ++ rest, locals, s⟩ ⟨.error e, s'⟩ := by
  intro callers r hr
  obtain ⟨r, rfl⟩ := exists_remaining hi hc hr
  have := Leads.step (p := p)
    ((⟨n, args.reverse ++ rest, locals, s⟩ : Point).thread code (r + 1) callers)
  rw [step_thread hi, execute_invoke hargs] at this
  exact this.trans (hg _)

/-- A call of a method with code. -/
theorem gives_code {c : Call} {s : State} {locals : Locals}
    (hcallee : p.callee c s = .ok (.code code)) (hargs : layOut 0 {} c.args = .ok locals)
    (h : p.Completes code ⟨0, [], locals, s⟩ o) :
    p.Gives c s o := by
  intro callers
  have henter : p.enter c callers s =
      .running ((⟨0, [], locals, s⟩ : Point).thread code Frame.stepLimit callers) := by
    simp only [enter, hcallee, Frame.start, hargs]
    rfl
  rw [henter]
  exact h callers _ (by simp)

/-- A call of a method of the platform. -/
theorem gives_hook {c : Call} {s s' : State} {className : String} {r : Except Fault (Option Value)}
    (hcallee : p.callee c s = .ok (.hook className))
    (hrun : (runHook p.config className c.name c.args).run s = (r, s')) : p.Gives c s ⟨r, s'⟩ := by
  intro callers
  have henter : p.enter c callers s = .leaving ⟨r, s'⟩ callers := by
    simp only [enter, hcallee, hrun]
    cases r <;> rfl
  rw [henter]
  exact .refl _

end Program

/-! ## Arguments in local slots -/

/-- The slots that values take. -/
def slotCount (args : List Value) : Nat := (args.map Value.size).foldr (· + ·) 0

@[simp] theorem slotCount_nil : slotCount [] = 0 := rfl

@[simp] theorem slotCount_cons (v : Value) (args : List Value) :
    slotCount (v :: args) = v.size + slotCount args := by
  simp [slotCount]

theorem slotCount_append (args₁ args₂ : List Value) :
    slotCount (args₁ ++ args₂) = slotCount args₁ + slotCount args₂ := by
  rw [slotCount, slotCount, slotCount, ← List.sum_eq_foldr, ← List.sum_eq_foldr,
    ← List.sum_eq_foldr]
  simp

theorem Value.size_pos (v : Value) : 0 < v.size := by
  cases v <;> simp [Value.size]

theorem Value.size_le (v : Value) : v.size ≤ 2 := by
  cases v <;> simp [Value.size]

theorem toUInt16_ne {m n : Nat} (h : m ≠ n) (hm : m < slotBound) (hn : n < slotBound) :
    m.toUInt16 ≠ n.toUInt16 := by
  intro e
  have := congrArg UInt16.toNat e
  simp only [Nat.toUInt16, UInt16.toNat_ofNat'] at this
  simp only [slotBound] at hm hn
  omega

/-- Arguments that fit take one slot after the other, and leave the slots before them alone. -/
theorem exists_layOut (args : List Value) (slot : Nat) (locals : Locals)
    (h : slot + slotCount args < slotBound) :
    ∃ locals', layOut slot locals args = .ok locals' ∧
      (∀ pre v post, args = pre ++ v :: post →
        locals'[(slot + slotCount pre).toUInt16]? = some v) ∧
      ∀ k < slot, locals'[k.toUInt16]? = locals[k.toUInt16]? := by
  induction args generalizing slot locals with
  | nil => exact ⟨locals, rfl, by simp, fun _ _ => rfl⟩
  | cons v rest ih =>
    rw [slotCount_cons] at h
    have hv := v.size_pos
    obtain ⟨locals', hlay, hargs, hkeep⟩ :=
      ih (slot + v.size) (locals.insert slot.toUInt16 v) (by omega)
    refine ⟨locals', ?_, ?_, ?_⟩
    · rw [layOut, if_pos (by omega), hlay]
    · intro pre w post hsplit
      rcases pre with _ | ⟨u, pre⟩
      · obtain ⟨rfl, -⟩ := List.cons.inj hsplit
        rw [slotCount_nil, Nat.add_zero, hkeep slot (by omega)]
        simp
      · obtain ⟨rfl, hrest⟩ := List.cons.inj hsplit
        rw [slotCount_cons, ← Nat.add_assoc]
        exact hargs pre w post hrest
    · intro k hk
      rw [hkeep k (by omega), Std.TreeMap.getElem?_insert, if_neg]
      rw [Std.LawfulEqCmp.compare_eq_iff_eq]
      exact toUInt16_ne (by omega) (by omega) (by omega)

/-- Arguments that were laid out fit. -/
theorem slotCount_lt_of_layOut {args : List Value} {slot : Nat} {locals locals' : Locals}
    (h : layOut slot locals args = .ok locals') (hargs : args ≠ []) :
    slot + slotCount args < slotBound := by
  induction args generalizing slot locals with
  | nil => exact absurd rfl hargs
  | cons v rest ih =>
    rw [layOut] at h
    split at h
    · next hfits =>
      rw [slotCount_cons, ← Nat.add_assoc]
      rcases rest with _ | ⟨u, rest⟩
      · exact hfits
      · exact ih h (List.cons_ne_nil u rest)
    · cases h

/-- The receiver of a call without arguments is in slot zero. -/
theorem exists_layOut_one (this : Value) :
    ∃ locals, layOut 0 {} [this] = .ok locals ∧ locals[(0 : UInt16)]? = some this := by
  have hsize := this.size_le
  obtain ⟨locals, hlay, hargs, -⟩ := exists_layOut [this] 0 {}
    (by simp only [slotCount_cons, slotCount_nil, slotBound]; omega)
  exact ⟨locals, hlay, hargs [] this [] rfl⟩

/-- The receiver of a call with one argument is in slot zero, the argument in slot one. -/
theorem exists_layOut_two {this : Value} (h : this.size = 1) (v : Value) :
    ∃ locals, layOut 0 {} [this, v] = .ok locals ∧ locals[(0 : UInt16)]? = some this ∧
      locals[(1 : UInt16)]? = some v := by
  have hsize := v.size_le
  obtain ⟨locals, hlay, hargs, -⟩ := exists_layOut [this, v] 0 {}
    (by simp only [slotCount_cons, slotCount_nil, slotBound]; omega)
  refine ⟨locals, hlay, hargs [] this [v] rfl, ?_⟩
  have := hargs [this] v [] rfl
  rw [slotCount_cons, slotCount_nil, h] at this
  exact this

/-! ## Blocks -/

namespace Point

/-- Executes instructions that each go on with the next one. -/
def exec? : Code → Point → Option Point
  | [], a => some a
  | i :: rest, a =>
    match a.frame.execute i a.state with
    | .next f s =>
      if f.position = a.position + 1 then exec? rest ⟨f.position, f.stack, f.locals, s⟩ else none
    | _ => none

theorem exec?_append (block₁ block₂ : Code) (a : Point) :
    exec? (block₁ ++ block₂) a = (exec? block₁ a).bind (exec? block₂) := by
  induction block₁ generalizing a with
  | nil => rfl
  | cons i rest ih =>
    simp only [List.cons_append, exec?]
    split
    · split
      · exact ih _
      · rfl
    · rfl

variable {n : Nat} {stack : List Value} {locals : Locals} {s : State} {this : Value}

theorem exec?_readThis (owner name : String) (type : FieldType)
    (hthis : locals[(0 : UInt16)]? = some this) :
    exec? [.loadThis, .getField owner name type] ⟨n, stack, locals, s⟩ =
      some ⟨n + 2, s.read this name type :: stack, locals, s⟩ := by
  simp only [Instruction.loadThis, exec?, frame, Frame.execute.eq_def, hthis, Frame.advance,
    if_true, State.read]

theorem exec?_writeThis {o : Nat} {slot : UInt16} {v : Value} (kind : ValueKind)
    (owner name : String) (type : FieldType) (hthis : locals[(0 : UInt16)]? = some (.object o))
    (ho : o < s.heap.size) (hv : locals[slot]? = some v) :
    exec? [.loadThis, .load kind slot, .putField owner name type] ⟨n, stack, locals, s⟩ =
      some ⟨n + 3, stack, locals, s.write o name v⟩ := by
  simp only [Instruction.loadThis, exec?, frame, Frame.execute.eq_def, hthis, hv,
    State.place?_object ho, Frame.advance, if_true]

end Point

/-- A conditional jump forward on a number. -/
theorem Program.flows_branchIf {p : Program} {code : Code} {n : Nat} {condition : Condition}
    {t : Target} {x : Int32} {stack : List Value} {locals : Locals} {s : State}
    (hc : code.length ≤ Frame.stepLimit) (hi : code[n]? = some (.branchIf condition t))
    (ht : n < t.toNat) : p.Flows code ⟨n, .int x :: stack, locals, s⟩
      ⟨if holds condition (compare x.toInt 0) then t.toNat else n + 1, stack, locals, s⟩ := by
  refine flows_next hc hi rfl ?_
  show n < if _ then _ else _
  split
  · exact ht
  · exact Nat.lt_succ_self n

/-- A block of plain instructions runs as `Point.exec?` says. -/
theorem Program.flows_block {p : Program} {code block : Code} {a b : Point}
    (hc : code.length ≤ Frame.stepLimit) (hp : Placed code a.position block)
    (hx : Point.exec? block a = some b) : p.Flows code a b := by
  induction block generalizing a with
  | nil =>
    cases hx
    exact .refl _
  | cons i rest ih =>
    rw [Point.exec?] at hx
    split at hx
    · next f s hf =>
      split at hx
      · next hpos =>
        have hstep : p.Flows code a ⟨f.position, f.stack, f.locals, s⟩ := by
          refine flows_next hc hp.head ?_ (by simp only; omega)
          have := Frame.execute_within a.frame #[] 0 i a.state
          rw [show ({ a.frame with code := #[], remaining := 0 } : Frame) = a.frame from rfl,
            hf] at this
          rw [hf, this]
          rfl
        refine hstep.trans (ih ?_ hx)
        simpa only [hpos] using hp.tail
      · cases hx
    · cases hx

end StorageWeave.Machine
