import StorageWeave.Proofs.Failures
import StorageWeave.Proofs.Injection
import StorageWeave.Proofs.Prologue

/-!
# The prologue of an entry constructor

The prologue of a constructor stands after its superclass call, behind code of the user. An
activation of the constructor cannot return before it has come to the prologue, and it comes there
from that call only (`Underway.step`). The prologue then records the trailing argument as the
caller, since no instruction before it stores that slot. What it records as callee and amount are
the values that slots zero and one have by then (`constructor_records_caller`); an instruction
before it may have stored them (`construct_records_stored`).
-/

namespace StorageWeave

open Bytecode Weaving Weaving.MethodWeaver

/-! ## Where control is before the prologue -/

namespace Machine

theorem Frame.step_invoke_ne_next {f : Frame} {s : State} {kind : InvokeKind} {owner name : String}
    {signature : Signature} (hi : f.code[f.position]? = some (.invoke kind owner name signature))
    (g : Frame) (t : State) : f.step s ≠ .next g t := by
  unfold step
  split
  · simp
  · simp only [hi, execute.eq_def, makeCall]
    generalize signature.params.length + (if kind.hasReceiver then 1 else 0) = count
    split <;> simp

/-- A prologue stands where the search has found a place for it. -/
structure Injected (P : Injection.Problem) (position : Nat) (block woven : Code) : Prop where
  found : P.find = .ok position
  splices : ∃ τ, Splices τ P.code.toList position block woven

/-- A position in spliced code that control can be at before it has come to the block. -/
def Ahead (P : Injection.Problem) (position length n : Nat) : Prop :=
  ∃ b, P.Passes b ∧ n = Code.spliced position length b

namespace Injected

variable {P : Injection.Problem} {position : Nat} {block woven : Code}

theorem start (h : Injected P position block woven) :
    1 < position ∧ woven[0]? = some .loadThis ∧ Ahead P position block.length 1 := by
  obtain ⟨call, signature, rfl, hfirst, hcall, hone, -⟩ := Injection.Problem.find_spec h.found
  obtain ⟨τ, hsplices⟩ := h.splices
  have hpos : 0 < call := by
    rcases Nat.eq_zero_or_pos call with rfl | hpos
    · rw [hfirst] at hcall
      cases hcall
    · exact hpos
  refine ⟨by omega, ?_, 1, hone, by simp [Code.spliced, hpos]⟩
  simpa [Code.spliced, hfirst, Instruction.loadThis, Instruction.mapTargets] using
    hsplices.getElem? 0

/-- Control ahead of the prologue stays there, until the superclass call. -/
theorem ahead (h : Injected P position block woven) {n : Nat}
    (hn : Ahead P position block.length n) :
    ∃ i, woven[n]? = some i ∧ P.callerSlot ∉ i.storedSlots ∧ i.control ≠ .exit ∧
      ((n + 1 = position ∧ ∃ signature,
          i = .invoke .special P.superclass constructorName signature) ∨
        ∀ n', i.Continues n n' → Ahead P position block.length n') := by
  obtain ⟨call, signature, rfl, -, hcall, -, hpasses⟩ := Injection.Problem.find_spec h.found
  obtain ⟨τ, hsplices⟩ := h.splices
  obtain ⟨b, hb, rfl⟩ := hn
  obtain ⟨i, hi, hslot, hexit, hnext⟩ := hpasses b hb
  have hget : woven[Code.spliced (call + 1) block.length b]? = some (i.mapTargets τ) := by
    simpa [hi] using hsplices.getElem? b
  refine ⟨_, hget, by rwa [Instruction.storedSlots_mapTargets],
    fun hcontrol => hexit (Instruction.exit_of_mapTargets hcontrol), ?_⟩
  by_cases hb' : b = call
  · subst hb'
    rw [hcall] at hi
    cases hi
    exact .inl ⟨by rw [Code.spliced_pred rfl], signature, rfl⟩
  · refine .inr fun n' hn' => ?_
    obtain ⟨b', hcontinues, rfl⟩ := Instruction.exists_continues
      (hsplices.targets i (by simpa using Array.mem_of_getElem? hi))
      (Code.spliced_succ (by omega)) hn'
    exact ⟨b', hnext hb' b' hcontinues, rfl⟩

theorem not_mem (n : Nat) (hn : Ahead P position block.length n) :
    n < position ∨ position + block.length ≤ n := by
  obtain ⟨b, -, rfl⟩ := hn
  have := Code.spliced_not_mem position block.length b
  omega

end Injected

/-! ## Calls that are made -/

/-- What a thread can come to while a frame waits for a call. -/
inductive Pending (f : Frame) (base : List Frame) : Progress → Prop
  | above {g : Frame} {gs : List Frame} {s : State} :
      Pending f base (.running ⟨g, gs ++ f :: base, s⟩)
  | resumed {v : Option Value} {s : State} : Pending f base (.running ⟨f.resume v, base, s⟩)
  | faulted {e : Fault} {s : State} : Pending f base (.faulting e s)

namespace Pending

variable {f : Frame} {base : List Frame}

theorem returning (gs : List Frame) (v : Option Value) (s : State) :
    Pending f base (.returning v (gs ++ f :: base) s) := by
  cases gs with
  | nil => exact .resumed
  | cons g gs => exact .above

theorem enter (p : Program) (gs : List Frame) (c : Call) (s : State) :
    Pending f base (p.enter c (gs ++ f :: base) s) := by
  unfold Program.enter
  rcases p.callee c s with e | callee
  · exact .faulted
  · cases callee with
    | code body =>
      dsimp only
      rcases Frame.start body c.args with e | g
      · exact .faulted
      · exact .above
    | hook className =>
      dsimp only
      rcases (runHook p.config className c.name c.args).run s with ⟨e | v, s'⟩
      · exact .faulted
      · exact returning gs v s'

theorem step (p : Program) (g : Frame) (gs : List Frame) (s : State) :
    Pending f base (p.step ⟨g, gs ++ f :: base, s⟩) := by
  unfold Program.step
  dsimp only
  rcases g.step s with ⟨g', t⟩ | ⟨c, g', t⟩ | ⟨v, t⟩ | ⟨e, t⟩
  · exact .above
  · exact enter p (g' :: gs) c t
  · exact returning gs v t
  · exact .faulted

end Pending

/-- A thread that has not left the activation on top of `base`, or that ended with a fault. -/
inductive Held (base : List Frame) : Progress → Prop
  | running {f : Frame} {gs : List Frame} {s : State} : Held base (.running ⟨f, gs ++ base, s⟩)
  | faulted {e : Fault} {s : State} : Held base (.faulting e s)

theorem Held.ne_returning {base : List Frame} {x : Progress} (h : Held base x) (v : Option Value)
    (s : State) : x ≠ .returning v base s := by
  intro hx
  cases h with
  | @running f gs t =>
    cases base with
    | nil => cases hx
    | cons g base =>
      have hlength : (gs ++ g :: base).length = base.length :=
        congrArg (·.callers.length) (Progress.running.inj hx)
      simp at hlength
      omega
  | faulted => cases base <;> cases hx

theorem Pending.held {f : Frame} {base : List Frame} {x : Progress} (h : Pending f base x) :
    Held base x := by
  cases h with
  | @above g gs s =>
    rw [show gs ++ f :: base = (gs ++ [f]) ++ base by simp]
    exact .running
  | resumed => exact @Held.running base _ [] _
  | faulted => exact .faulted

/-- Other frames run above a waiting frame. -/
def Above (f : Frame) (base : List Frame) (x : Progress) : Prop :=
  ∃ g gs s, x = .running ⟨g, gs ++ f :: base, s⟩

theorem Above.held {f : Frame} {base : List Frame} {x : Progress} (h : Above f base x) :
    Held base x := by
  obtain ⟨g, gs, s, rfl⟩ := h
  exact Pending.above.held

/-- A frame above is not an activation on top of the waiting frames below. -/
theorem Above.ne_running {f : Frame} {base : List Frame} {x : Progress} (h : Above f base x)
    (g : Frame) (s : State) : x ≠ .running ⟨g, base, s⟩ := by
  obtain ⟨g', gs, s', rfl⟩ := h
  intro hx
  injection hx with hx
  have hlength := congrArg (fun t => t.callers.length) hx
  simp at hlength
  omega

namespace Program

variable {p : Program} {x : Progress} {base : List Frame}

theorem after_succ (n : Nat) (x : Progress) : p.after (n + 1) x = p.after 1 (p.after n x) :=
  after_add n 1 x

theorem after_of_faulting {e : Fault} {s : State} {m n : Nat} (h : p.after m x = .faulting e s)
    (hmn : m ≤ n) : p.after n x = .faulting e s := by
  rw [← Nat.add_sub_cancel' hmn, after_add, h]
  exact after_ended _ _

/-- A call that is made returns before the activation that makes it is left. -/
theorem exists_resumed {f : Frame} {i n : Nat} {v : Option Value} {s : State}
    (hcall : Pending f base (p.after (i + 1) x)) (hi : i < n)
    (hreturn : p.after n x = .returning v base s) :
    ∃ j v s, i < j ∧ j ≤ n ∧ p.after j x = .running ⟨f.resume v, base, s⟩ ∧
      ∀ l, i < l → l < j → Above f base (p.after l x) := by
  classical
  have hend : ∃ j, i < j ∧ ¬ Above f base (p.after j x) := by
    exact ⟨n, hi, fun habove => habove.held.ne_returning v s hreturn⟩
  -- The first step at which no frame runs above the waiting one.
  obtain ⟨j, ⟨hj, hdone⟩, hfirst⟩ : ∃ j, (i < j ∧ ¬ Above f base (p.after j x)) ∧
      ∀ l, i < l → l < j → Above f base (p.after l x) := by
    refine ⟨Nat.find hend, Nat.find_spec hend, fun l hl hlt => ?_⟩
    by_contra habove
    exact Nat.find_min hend hlt ⟨hl, habove⟩
  have hjn : j ≤ n := by
    by_contra hlt
    exact (hfirst n hi (by omega)).held.ne_returning v s hreturn
  have hpending : Pending f base (p.after j x) := by
    rcases Nat.lt_or_ge (i + 1) j with hlt | hge
    · obtain ⟨l, rfl⟩ : ∃ l, j = l + 1 := ⟨j - 1, by omega⟩
      obtain ⟨g, gs, t, habove⟩ := hfirst l (by omega) (by omega)
      rw [after_succ, habove]
      exact Pending.step p g gs t
    · rwa [show j = i + 1 by omega]
  generalize hx : p.after j x = y at hpending hdone
  cases hpending with
  | above => exact absurd ⟨_, _, _, rfl⟩ hdone
  | @resumed v' s' => exact ⟨j, v', s', hj, hjn, hx, hfirst⟩
  | faulted =>
    have hfault := after_of_faulting hx hjn
    rw [hreturn] at hfault
    exact absurd hfault.symm (Held.faulted.ne_returning v s)

/-- An activation is not left inside a block, also if it has too few steps left for the block. -/
theorem held_of_block {code block : Code} {a b : Point} (hp : Placed code a.position block)
    (hx : Point.exec? block a = some b) {m r : Nat} (hmr : min m r ≤ block.length) :
    Held base (p.after m (.running (a.thread code r base))) := by
  have hprefix (m : Nat) (hm : m ≤ r) (hmb : m ≤ block.length) : ∃ b : Point,
      p.after m (.running (a.thread code r base)) = .running (b.thread code (r - m) base) := by
    rw [← List.take_append_drop m block] at hp hx
    rw [Point.exec?_append] at hx
    obtain ⟨b, hb, -⟩ := Option.bind_eq_some_iff.1 hx
    have hafter := after_block (p := p) hp.left hb (r - m) base
    rw [List.length_take, Nat.min_eq_left (by omega), Nat.sub_add_cancel hm] at hafter
    exact ⟨b, hafter⟩
  rcases Nat.lt_or_ge r m with hlt | hge
  · obtain ⟨b, hb⟩ := hprefix r (Nat.le_refl r) (by omega)
    have hfault : p.after (r + 1) (.running (a.thread code r base)) =
        .faulting .stepLimit b.state := by
      rw [after_succ, hb]
      exact step_stepLimit p base b.state (Nat.sub_self r)
    rw [after_of_faulting hfault (by omega)]
    exact .faulted
  · obtain ⟨b, hb⟩ := hprefix m hge (by omega)
    rw [hb]
    exact @Held.running base _ [] _

end Program

/-! ## The way to the superclass call -/

/-- An activation of code with an injected prologue, on top of the frames that wait for it. -/
structure Constructing where
  program : Program
  problem : Injection.Problem
  position : Nat
  block : Code
  woven : Code
  injected : Injected problem position block woven
  locals : Locals
  this : Value
  receiver : locals[(0 : UInt16)]? = some this
  callers : List Frame
  state : State

namespace Constructing

variable (a : Constructing)

/-- The frame before its first instruction. -/
def frame : Frame := ⟨a.woven.toArray, 0, [], a.locals, Frame.stepLimit⟩

/-- The thread after a number of steps. -/
def thread (n : Nat) : Progress := a.program.after n (.running ⟨a.frame, a.callers, a.state⟩)

/-- The activation is about to execute an instruction. -/
def Executes (n : Nat) (f : Frame) (i : Instruction) : Prop :=
  (∃ s, a.thread n = .running ⟨f, a.callers, s⟩) ∧ f.code[f.position]? = some i

/-- No instruction that the activation executes in its first steps stores a slot. -/
def Spares (n : Nat) (slot : UInt16) : Prop :=
  ∀ l < n, ∀ f i, a.Executes l f i → slot ∉ i.storedSlots

/-- None of these instructions but the first takes the lowest operand from the stack. -/
def SparesLowest (n : Nat) : Prop :=
  ∀ l < n, 0 < l → ∀ f i, a.Executes l f i → operandCount i < f.stack.length

/-- What is true of the frame of the activation before the superclass call. -/
structure Holds (n : Nat) (f : Frame) : Prop where
  code : f.code = a.woven.toArray
  slots : ∀ slot, a.Spares n slot → f.locals[slot]? = a.locals[slot]?
  kept : ∀ slot : UInt16, (a.locals[slot]?).isSome → (f.locals[slot]?).isSome
  caller : a.Spares n a.problem.callerSlot
  lowest : a.SparesLowest n → f.stack.getLast? = some a.this

variable {a} {n : Nat} {f g : Frame} {i : Instruction} {s : State}

theorem Spares.mono {m : Nat} {slot : UInt16} (h : a.Spares n slot) (hmn : m ≤ n) :
    a.Spares m slot := fun l hl => h l (by omega)

theorem SparesLowest.mono {m : Nat} (h : a.SparesLowest n) (hmn : m ≤ n) : a.SparesLowest m :=
  fun l hl => h l (by omega)

/-- A step of a frame above changes nothing for the waiting activation. -/
theorem Holds.above (h : a.Holds n f) (habove : Above g a.callers (a.thread n)) :
    a.Holds (n + 1) f := by
  refine ⟨h.code, fun slot hslot => h.slots slot (hslot.mono (by omega)), h.kept, ?_,
    fun hlowest => h.lowest (hlowest.mono (by omega))⟩
  intro l hl f' i hi
  rcases Nat.lt_or_eq_of_le (Nat.le_of_lt_succ hl) with hlt | rfl
  · exact h.caller l hlt f' i hi
  · obtain ⟨⟨s, hs⟩, -⟩ := hi
    exact absurd hs (habove.ne_running f' s)

theorem Holds.resume (h : a.Holds n f) (v : Option Value) : a.Holds n (f.resume v) := by
  refine ⟨h.code, h.slots, h.kept, h.caller, fun hlowest => ?_⟩
  show (v.toList ++ f.stack).getLast? = some a.this
  rw [List.getLast?_append, h.lowest hlowest]
  rfl

/-- An instruction that keeps the slot of the caller leaves the frame as it should be. -/
theorem Holds.next (h : a.Holds n f) (hn : 0 < n) (hi : a.Executes n f i)
    (hslot : a.problem.callerSlot ∉ i.storedSlots) (hcode : g.code = f.code)
    (hlocals : ∀ slot : UInt16, slot ∉ i.storedSlots → g.locals[slot]? = f.locals[slot]?)
    (hkept : ∀ slot : UInt16, (f.locals[slot]?).isSome → (g.locals[slot]?).isSome)
    (hstack : ∃ pushed, g.stack = pushed ++ f.stack.drop (operandCount i)) :
    a.Holds (n + 1) g := by
  refine ⟨hcode.trans h.code, ?_, fun slot hs => hkept slot (h.kept slot hs), ?_, ?_⟩
  · intro slot hspares
    rw [hlocals slot (hspares n (by omega) f i hi)]
    exact h.slots slot (hspares.mono (by omega))
  · intro l hl f' i' hi'
    rcases Nat.lt_or_eq_of_le (Nat.le_of_lt_succ hl) with hlt | rfl
    · exact h.caller l hlt f' i' hi'
    · obtain ⟨⟨s, hs⟩, hget⟩ := hi
      obtain ⟨⟨s', hs'⟩, hget'⟩ := hi'
      rw [hs] at hs'
      cases hs'
      cases hget.symm.trans hget'
      exact hslot
  · intro hlowest
    obtain ⟨pushed, hpushed⟩ := hstack
    have hcount : operandCount i < f.stack.length := hlowest n (by omega) hn f i hi
    rw [hpushed, List.getLast?_append, List.getLast?_drop, if_neg (by omega),
      h.lowest (hlowest.mono (by omega))]
    rfl

/-- Where the activation can be before its superclass call. -/
inductive Underway (a : Constructing) (n : Nat) : Prop
  | inside {f : Frame} {s : State} : a.thread n = .running ⟨f, a.callers, s⟩ →
      Ahead a.problem a.position a.block.length f.position → a.Holds n f → Underway a n
  | waiting {f : Frame} : Above f a.callers (a.thread n) →
      Ahead a.problem a.position a.block.length f.position → a.Holds n f → Underway a n
  | faulted {e : Fault} {s : State} : a.thread n = .faulting e s → Underway a n

/-- The activation at `g` makes the superclass call `c`, and at `f` waits for it. -/
structure CallsSuper (a : Constructing) (n : Nat) (c : Call) (g f : Frame) (s : State) : Prop where
  thread : a.thread n = .running ⟨g, a.callers, s⟩
  step : g.step s = .call c f s
  kind : c.kind = .special
  owner : c.owner = a.problem.superclass
  name : c.name = constructorName
  position : f.position = a.position
  holds : a.Holds (n + 1) f
  receiver : a.SparesLowest n → c.args.length = g.stack.length → c.args.head? = some a.this

theorem thread_succ (hthread : a.thread n = .running ⟨f, a.callers, s⟩) :
    a.thread (n + 1) = a.program.step ⟨f, a.callers, s⟩ := by
  rw [thread, Program.after_succ, ← thread, hthread]
  rfl

/-- While the activation waits ahead of the prologue, it is underway. -/
theorem Underway.of_pending (h : Pending f a.callers (a.thread n))
    (hposition : Ahead a.problem a.position a.block.length f.position) (hf : a.Holds n f) :
    a.Underway n := by
  generalize hx : a.thread n = x at h
  cases h with
  | above => exact .waiting ⟨_, _, _, hx⟩ hposition hf
  | @resumed v s => exact .inside hx hposition (hf.resume v)
  | faulted => exact .faulted hx

theorem Underway.held (h : a.Underway n) : Held a.callers (a.thread n) := by
  cases h with
  | inside hthread =>
    rw [hthread]
    exact @Held.running a.callers _ [] _
  | waiting habove => exact habove.held
  | faulted hthread =>
    rw [hthread]
    exact .faulted

/-- The first instruction loads the receiver. -/
theorem underway_one (a : Constructing) : a.Underway 1 := by
  obtain ⟨-, hfirst, hone⟩ := a.injected.start
  have hget : a.frame.code[a.frame.position]? = some .loadThis := by
    simpa [frame] using hfirst
  have hstep : a.thread 1 = .running
      ⟨⟨a.woven.toArray, 1, [a.this], a.locals, Frame.stepLimit - 1⟩, a.callers, a.state⟩ := by
    show a.program.step _ = _
    rw [a.program.step_eq a.callers a.state (f := a.frame) rfl hget]
    simp only [frame, Instruction.loadThis, Frame.execute.eq_def, a.receiver, Frame.advance]
    rfl
  refine .inside hstep hone ⟨rfl, fun _ _ => rfl, fun _ => id, ?_, fun _ => rfl⟩
  intro l hl f i hi
  obtain rfl : l = 0 := by omega
  obtain ⟨⟨s, hs⟩, hi⟩ := hi
  cases hs
  cases hget.symm.trans hi
  exact List.not_mem_nil

/-- **One step** of an activation underway: it is still underway, or makes the superclass call. -/
theorem Underway.step (h : a.Underway n) (hn : 0 < n) :
    a.Underway (n + 1) ∨ ∃ c g f s, a.CallsSuper n c g f s := by
  cases h with
  | @inside f s hthread hposition hf =>
    obtain ⟨i, hi, hslot, hexit, hnext⟩ := a.injected.ahead hposition
    have hget : f.code[f.position]? = some i := by
      rw [hf.code]
      simpa using hi
    have hexec : a.Executes n f i := ⟨⟨s, hthread⟩, hget⟩
    have hsucc := thread_succ hthread
    rcases hstep : f.step s with ⟨g, t⟩ | ⟨c, g, t⟩ | ⟨v, t⟩ | ⟨e, t⟩
    · obtain ⟨i', hi', hgoes⟩ := Frame.goes_of_step hstep
      cases hget.symm.trans hi'
      rcases hnext with ⟨-, signature, rfl⟩ | hnext
      · exact absurd hstep (Frame.step_invoke_ne_next hget g t)
      · simp only [Program.step, hstep] at hsucc
        exact .inl (.inside hsucc (hnext _ hgoes.position)
          (hf.next hn hexec hslot hgoes.code hgoes.locals hgoes.kept hgoes.stack))
    · obtain ⟨hinvoke, rfl, count, hcount, hle, hargs, hstack, hcode, hpos, hlocals⟩ :=
        Frame.of_step_call hstep
      cases hget.symm.trans hinvoke
      simp only [Program.step, hstep] at hsucc
      have hg : a.Holds (n + 1) g := by
        refine hf.next hn hexec hslot hcode (fun _ _ => by rw [hlocals])
          (fun _ => by rw [hlocals]; exact id) ⟨[], ?_⟩
        rw [hstack, hcount]
        rfl
      rcases hnext with ⟨hcall, signature, hi⟩ | hnext
      · obtain ⟨hkind, howner, hname, -⟩ : c.kind = .special ∧ c.owner = a.problem.superclass ∧
            c.name = constructorName ∧ c.signature = signature := by
          simpa using hi
        refine .inr ⟨c, f, g, t, hthread, hstep, hkind, howner, hname, hpos.trans hcall, hg, ?_⟩
        intro hlowest hall
        rw [hargs, List.length_reverse, List.length_take, Nat.min_eq_left hle] at hall
        rw [hargs, hall, List.take_length, List.head?_reverse, hf.lowest hlowest]
      · refine .inl (.of_pending ?_ (hnext _ hpos) hg)
        rw [hsucc]
        exact Pending.enter a.program [] c t
    · obtain ⟨i', hi', hcontrol⟩ := Frame.exit_of_step hstep
      cases hget.symm.trans hi'
      exact absurd hcontrol hexit
    · simp only [Program.step, hstep] at hsucc
      exact .inl (.faulted hsucc)
  | @waiting f habove hposition hf =>
    obtain ⟨g, gs, s, hthread⟩ := id habove
    refine .inl (.of_pending ?_ hposition (hf.above habove))
    rw [thread, Program.after_succ, ← thread, hthread]
    exact Pending.step a.program g gs s
  | faulted hthread => exact .inl (.faulted (Program.after_of_faulting hthread n.le_succ))

/-- An activation that is left has made the superclass call before. -/
theorem exists_callsSuper {v : Option Value} (hreturn : a.thread n = .returning v a.callers s) :
    ∃ i c g f s, 0 < i ∧ i < n ∧ a.CallsSuper i c g f s ∧ ∀ l, 0 < l → l ≤ i → a.Underway l := by
  classical
  have hzero : n ≠ 0 := by
    rintro rfl
    exact (@Held.running a.callers a.frame [] a.state).ne_returning v s hreturn
  have hend : ∃ i, ¬ a.Underway (i + 1) := by
    refine ⟨n - 1, fun h => ?_⟩
    rw [Nat.sub_add_cancel (by omega)] at h
    exact h.held.ne_returning v s hreturn
  obtain ⟨i, hdone, hfirst⟩ : ∃ i, ¬ a.Underway (i + 1) ∧ ∀ l < i, a.Underway (l + 1) := by
    refine ⟨Nat.find hend, Nat.find_spec hend, fun l hl => ?_⟩
    by_contra hunderway
    exact Nat.find_min hend hl hunderway
  have hbefore (l : Nat) (hl : 0 < l) (hli : l ≤ i) : a.Underway l := by
    obtain ⟨l, rfl⟩ : ∃ l', l = l' + 1 := ⟨l - 1, by omega⟩
    exact hfirst l hli
  have hpos : 0 < i := by
    rcases Nat.eq_zero_or_pos i with rfl | hpos
    · exact absurd a.underway_one hdone
    · exact hpos
  have hin : i < n := by
    by_contra hge
    exact (hbefore n (by omega) (by omega)).held.ne_returning v s hreturn
  rcases (hbefore i hpos (Nat.le_refl i)).step hpos with hunderway | ⟨c, g, f, s, hcall⟩
  · exact absurd hunderway hdone
  · exact ⟨i, c, g, f, s, hpos, hin, hcall, hbefore⟩

/-! ## The prologue -/

/--
The activation makes its superclass call at step `i` and comes back from it at step `j`. It is then
at the prologue for the first time, and the prologue records an entry.
-/
structure RecordsAfterSuper (a : Constructing) (i j : Nat) (c : Call) (g : Frame) (e : EntryCall) :
    Prop where
  special : c.kind = .special ∧ c.owner = a.problem.superclass ∧ c.name = constructorName
  lt : i < j
  made : ∃ f s v t, a.thread i = .running ⟨g, a.callers, s⟩ ∧ g.step s = .call c f s ∧
    (∀ l, i < l → l < j → Above f a.callers (a.thread l)) ∧
    a.thread j = .running ⟨f.resume v, a.callers, t⟩ ∧ f.position = a.position ∧
    ∃ f', a.thread (j + a.block.length) = .running ⟨f', a.callers, t.withEntry e⟩ ∧
      f'.position = a.position + a.block.length
  first : ∀ l < j, ∀ f s, a.thread l = .running ⟨f, a.callers, s⟩ →
    f.position < a.position ∨ a.position + a.block.length ≤ f.position

/-- Until it is back from the superclass call the activation is not at its prologue. -/
theorem outside_of_lt {j : Nat} (hbefore : ∀ l, 0 < l → l ≤ n → a.Underway l)
    (habove : ∀ l, n < l → l < j → Above g a.callers (a.thread l)) {l : Nat} (hl : l < j)
    (hthread : a.thread l = .running ⟨f, a.callers, s⟩) :
    f.position < a.position ∨ a.position + a.block.length ≤ f.position := by
  rcases Nat.eq_zero_or_pos l with rfl | hpos
  · obtain ⟨hone, -⟩ := a.injected.start
    cases hthread
    exact .inl (Nat.lt_of_succ_lt hone)
  · rcases Nat.lt_or_ge n l with hlt | hge
    · exact absurd hthread ((habove l hlt hl).ne_running f s)
    · cases hbefore l hpos hge with
      | inside hthread' hposition =>
        cases hthread.symm.trans hthread'
        exact Injected.not_mem _ hposition
      | waiting habove => exact absurd hthread (habove.ne_running f s)
      | faulted hthread' => cases hthread.symm.trans hthread'

section Prologue

variable {h : Hierarchy} {expected : Option String} {amount : Option FieldType} {caller : Value}
  {v : Option Value}

/-- An activation that comes to its prologue and is left later runs the prologue to its end. -/
theorem exists_recorded (hconfig : a.program.config = h.config)
    (hroot : a.program.classes.get? h.config.contractRoot = none)
    (hblock : a.block = prologueCode h a.problem.callerSlot expected amount) {j : Nat} {t : State}
    (hj : a.thread j = .running ⟨f, a.callers, t⟩) (hcode : f.code = a.woven.toArray)
    (hposition : f.position = a.position) {this : Value} {value : Option Value}
    (hthis : f.locals[(0 : UInt16)]? = some this)
    (hcaller : f.locals[a.problem.callerSlot]? = some caller)
    (hvalue : value.isSome = amount.isSome)
    (hamount : ∀ u ∈ value, f.locals[(1 : UInt16)]? = some u) (hjn : j ≤ n)
    (hreturn : a.thread n = .returning v a.callers s) :
    j + a.block.length ≤ n ∧
      ∃ f', a.thread (j + a.block.length) =
          .running ⟨f', a.callers, t.withEntry ⟨this, caller, value⟩⟩ ∧
        f'.position = a.position + a.block.length := by
  obtain ⟨τ, hsplices⟩ := a.injected.splices
  have hplaced := hsplices.placed
  rw [hblock] at hplaced
  have hthread : a.thread j = .running ((⟨a.position, f.stack, f.locals, t⟩ : Point).thread a.woven
      f.remaining a.callers) := by
    rw [hj, ← hposition, Point.thread, ← hcode]
  -- Otherwise the thread is in the prologue after `n` steps, or has come to its step limit there.
  have hbudget : a.block.length ≤ f.remaining ∧ j + a.block.length ≤ n := by
    by_contra hshort
    have hloads : Point.exec? (prologueLoads h a.problem.callerSlot expected amount)
        ⟨a.position, f.stack, f.locals, t⟩ = _ :=
      exec?_prologueLoads hthis hcaller hvalue hamount
    rw [prologueCode_eq] at hplaced hblock
    have hlength := congrArg List.length hblock
    rw [List.length_append, List.length_singleton] at hlength
    have hheld : Held a.callers (a.program.after (n - j) (a.thread j)) := by
      rw [hthread]
      exact Program.held_of_block hplaced.left hloads (by omega)
    rw [thread, ← Program.after_add, Nat.add_sub_cancel' hjn] at hheld
    exact hheld.ne_returning v s hreturn
  have hprologue := after_prologue hconfig hroot hplaced hthis hcaller hvalue hamount
    (f.remaining - a.block.length) f.stack a.callers t
  rw [← hblock, Nat.sub_add_cancel hbudget.1, ← hthread, thread, ← Program.after_add] at hprologue
  exact ⟨hbudget.2, _, hprologue, rfl⟩

/--
An activation that is left has recorded the caller after its superclass call, with the values that
the slots of the receiver and the amount had by then.
-/
theorem exists_recordsAfterSuper (hconfig : a.program.config = h.config)
    (hroot : a.program.classes.get? h.config.contractRoot = none)
    (hblock : a.block = prologueCode h a.problem.callerSlot expected amount)
    (hcaller : a.locals[a.problem.callerSlot]? = some caller)
    (hamount : amount.isSome → (a.locals[(1 : UInt16)]?).isSome)
    (hreturn : a.thread n = .returning v a.callers s) :
    ∃ i j c g e, a.RecordsAfterSuper i j c g e ∧ j + a.block.length ≤ n ∧ e.caller = caller ∧
      (a.Spares j 0 → e.callee = a.this) ∧
      e.amount.isSome = amount.isSome ∧
      (amount.isSome → a.Spares j 1 → e.amount = a.locals[(1 : UInt16)]?) ∧
      (a.SparesLowest i → c.args.length = g.stack.length → c.args.head? = some a.this) := by
  obtain ⟨i, c, g, f, s₁, hpos, hin, hcall, hbefore⟩ := exists_callsSuper hreturn
  have hpending : Pending f a.callers (a.thread (i + 1)) := by
    rw [thread_succ hcall.thread, Program.step, hcall.step]
    exact Pending.enter a.program [] c s₁
  obtain ⟨j, u, t, hij, hjn, hj, habove⟩ := Program.exists_resumed hpending hin hreturn
  have hf := hcall.holds
  obtain ⟨this, hthis⟩ := Option.isSome_iff_exists.1 (hf.kept 0 (by simp [a.receiver]))
  have hcaller' : f.locals[a.problem.callerSlot]? = some caller := by
    rw [hf.slots _ hf.caller, hcaller]
  obtain ⟨value, hvalue, hone⟩ : ∃ value : Option Value, value.isSome = amount.isSome ∧
      (amount.isSome → value = f.locals[(1 : UInt16)]?) := by
    refine ⟨if amount.isSome then f.locals[(1 : UInt16)]? else none, ?_, fun h => if_pos h⟩
    cases hsome : amount.isSome with
    | false => rfl
    | true => simpa using hf.kept 1 (hamount hsome)
  have hslot (w : Value) (hw : w ∈ value) : f.locals[(1 : UInt16)]? = some w := by
    rw [← hone (by rw [← hvalue, Option.isSome_of_mem hw]), hw]
  obtain ⟨hn, f', hrecorded⟩ := exists_recorded hconfig hroot hblock hj hf.code hcall.position hthis
    hcaller' hvalue hslot hjn hreturn
  refine ⟨i, j, c, g, ⟨this, caller, value⟩, ⟨⟨hcall.kind, hcall.owner, hcall.name⟩, hij, ?_, ?_⟩,
    hn, rfl, ?_, hvalue, ?_, hcall.receiver⟩
  · exact ⟨f, s₁, u, t, hcall.thread, hcall.step, habove, hj, hcall.position, f', hrecorded⟩
  · exact fun l hl f' s' => outside_of_lt hbefore habove hl
  · intro hspares
    have hzero := hf.slots 0 (hspares.mono hij)
    rw [hthis, a.receiver] at hzero
    exact Option.some.inj hzero
  · exact fun hsome hspares => (hone hsome).trans (hf.slots 1 (hspares.mono hij))

end Prologue

end Constructing

end Machine

open Machine

theorem Weaving.MethodWeaver.EntryWoven.injected {h : Hierarchy} {c : ClassDef} {m : MethodDef}
    {role : Role} {code : Code} {w : WovenMethod} {body woven : Code} {position : Nat}
    {expected : Option String} (hwoven : EntryWoven h c m role code w body woven position expected)
    (hconstructor : m.isConstructor = true) :
    ∃ superclass, c.superclass = some superclass ∧
      Injected ⟨c.name, m.name, body.toArray, superclass, m.firstFreeSlot.toUInt16⟩ position
        (prologueCode h m.firstFreeSlot.toUInt16 expected (amountType? m role)) woven := by
  have hsite := hwoven.site
  unfold prologuePosition at hsite
  rw [if_pos hconstructor] at hsite
  obtain ⟨-, τ, hsplices⟩ := exists_splices hwoven.inserted prologueCode_ne_nil
  rcases hs : c.superclass with _ | superclass
  · simp only [hs] at hsite
    cases hsite
  · simp only [hs] at hsite
    rw [ofExcept_eq] at hsite
    exact ⟨superclass, rfl, hsite, τ, hsplices⟩

/--
**The prologue of an entry constructor records its caller after the superclass call.** An activation
that is left has made that call, come back from it to the prologue, and recorded the caller it was
given. It has recorded the receiver and the first argument too, unless it stored other values in
their slots before; and the superclass call was made on the receiver, unless the activation took it
from the stack before or left something on the stack.
-/
theorem constructor_records_caller {h : Hierarchy} {c : ClassDef} {m : MethodDef} {w : WovenMethod}
    {role : Role} {code : Code} {p : Program} {this caller : Value} {args : List Value}
    (hw : weaveMethod h c m = .ok w)
    (hrole : (Oracle.exact h).role h.config ⟨c.name, m.name, m.signature⟩ = .ok role)
    (hentry : role.isEntry = true) (hconstructor : m.isConstructor = true)
    (hcode : m.code = some code) (hconfig : p.config = h.config)
    (hroot : p.classes.get? h.config.contractRoot = none) (hthis : this.size = 1)
    (hargs : args.map Value.size = m.signature.params.map FieldType.size) {woven : Code} {f : Frame}
    (hwoven : w.method.code = some woven)
    (hstart : Frame.start woven (this :: args ++ [caller]) = .ok f) {callers : List Frame}
    {s s' : State} {n : Nat} {v : Option Value}
    (hreturn : p.after n (.running ⟨f, callers, s⟩) = .returning v callers s') :
    ∃ (a : Constructing) (expected : Option String) (i j : Nat) (call : Call) (g : Frame)
      (e : EntryCall),
      a.program = p ∧ a.thread 0 = .running ⟨f, callers, s⟩ ∧ a.callers = callers ∧
      c.superclass = some a.problem.superclass ∧
      a.block = prologueCode h m.firstFreeSlot.toUInt16 expected (amountType? m role) ∧
      a.RecordsAfterSuper i j call g e ∧ j + a.block.length ≤ n ∧
      e.caller = caller ∧
      (a.Spares j 0 → e.callee = this) ∧
      (e.amount.isSome ↔ role = .payableEntry) ∧
      (role = .payableEntry → a.Spares j 1 → e.amount = args.head?) ∧
      (a.SparesLowest i → call.args.length = g.stack.length → call.args.head? = some this) := by
  obtain ⟨body, woven', position, expected, hentryWoven⟩ :=
    exists_entryWoven (weaveMethod_exact hw) hrole hentry hcode
  cases hwoven.symm.trans hentryWoven.result
  obtain ⟨superclass, hsuper, hinjected⟩ := hentryWoven.injected hconstructor
  have hslot : m.firstFreeSlot + caller.size < slotBound := by
    obtain ⟨locals, hlay, -⟩ := bind_eq_ok.1 hstart
    have hfits := slotCount_lt_of_layOut hlay (by simp)
    rw [slotCount_append, ← firstFreeSlot_eq hentryWoven.receiver hthis hargs, Nat.zero_add]
      at hfits
    simpa using hfits
  obtain ⟨locals, hlay, hthis', hcaller, hfirst⟩ :=
    exists_entryLocals hentryWoven.receiver hthis hargs hslot
  obtain rfl : f = ⟨woven.toArray, 0, [], locals, Frame.stepLimit⟩ := by
    simp only [Frame.start, hlay] at hstart
    exact (Except.ok.inj hstart).symm
  have hpayable : (amountType? m role).isSome = true ↔ role = .payableEntry := by
    unfold amountType?
    split
    · next hpayable => simp [hpayable, hentryWoven.amount hpayable]
    · next hplain => simp [hplain]
  have hone (hpays : role = .payableEntry) :
      (locals[(1 : UInt16)]?).isSome ∧ locals[(1 : UInt16)]? = args.head? := by
    have hsome := isSome_amountType? hentryWoven.amount hargs
    rw [if_pos hpays, hpayable.2 hpays] at hsome
    obtain ⟨u, hu⟩ := Option.isSome_iff_exists.1 hsome
    rw [hu, hfirst u hu]
    exact ⟨rfl, rfl⟩
  let a : Constructing := ⟨p, _, position, _, woven, hinjected, locals, this, hthis', callers, s⟩
  obtain ⟨i, j, call, g, e, hrecords, hn, hcaller', hcallee, hsome, hamount, hreceiver⟩ :=
    a.exists_recordsAfterSuper hconfig hroot rfl hcaller
      (fun hsome => (hone (hpayable.1 hsome)).1) hreturn
  refine ⟨a, expected, i, j, call, g, e, rfl, rfl, rfl, hsuper, rfl, hrecords, hn, hcaller',
    hcallee, by rw [hsome, hpayable], fun hpays hspares => ?_, hreceiver⟩
  rw [hamount (hpayable.2 hpays) hspares]
  exact (hone hpays).2

namespace Vault

/-- A payable constructor of a contract, with given code before the superclass call. -/
def constructor (before : Code) : MethodDef where
  name := constructorName
  signature := ⟨[.primitive .int], none⟩
  annotations := [⟨"runtime.Payable", none⟩]
  code := some ([.loadThis] ++ before ++
    [.invoke .special "runtime.Contract" constructorName .void, .return none])

def vault (before : Code) : ClassDef where
  name := "bank.Vault"
  superclass := some "runtime.Contract"
  methods := [constructor before]

def hierarchy (before : Code) : Hierarchy := ⟨⟨[⟨vault before, (vault before).toBytes⟩]⟩, {}⟩

/-- The woven code of the constructor. -/
def woven (before : Code) : Code :=
  [.loadThis] ++ before ++ [.invoke .special "runtime.Contract" constructorName .void,
    .loadThis, .load .reference 2, .load .int 1, .invoke .special "runtime.Contract" "payableEntry"
      ⟨[.reference "runtime.Contract", .primitive .int], none⟩, .return none]

def program (before : Code) : Program := .ofClasses [wovenResult (hierarchy before) (vault before)]

/-- A state with a client. -/
def client : State := (State.allocate {} "bank.Client").2

/-- What a construction with an amount of five, on behalf of the client, records. -/
def recorded (before : Code) : Option (Option Value × Array EntryCall) :=
  ((program before).construct 20 "bank.Vault"
      ⟨[.primitive .int, .reference "runtime.Contract"], none⟩ [.int 5, .object 0] client).map
    fun out => (out.result.toOption, out.state.entries)

/-- Code that keeps the slots: it stores a third one, or skips that. -/
def kept : Code := [.load .int 1, .branchIf .ne 5, .const (.int 1), .store .int 3]

/-- Code that stores another amount. -/
def amountStored : Code := [.const (.int 7), .store .int 1]

/-- Code that stores another object in the slot of the receiver. -/
def receiverStored : Code := [.new "bank.Client", .store .reference 0]

/-- The code of the constructor, which weaving only splices a prologue into. -/
def body (before : Code) : Code :=
  [.loadThis] ++ before ++ [.invoke .special "runtime.Contract" constructorName .void, .return none]

/-- The woven constructor, with its prologue behind the superclass call. -/
def wovenConstructor (before : Code) : WovenMethod where
  method := { constructor before with
    signature := ⟨[.primitive .int, .reference "runtime.Contract"], none⟩
    code := some (woven before) }
  prologue := some ⟨⟨"bank.Vault", constructorName, ⟨[.primitive .int], none⟩⟩, .payableEntry,
    before.length + 2⟩

variable {before : Code}

theorem role_payable (hbefore : before ∈ [kept, amountStored, receiverStored]) :
    (Oracle.exact (hierarchy before)).role (hierarchy before).config
      ⟨(vault before).name, constructorName, (constructor before).signature⟩ =
        .ok .payableEntry := by
  revert before
  decide +kernel

theorem find_superclass (hbefore : before ∈ [kept, amountStored, receiverStored]) :
    Injection.Problem.find ⟨"bank.Vault", constructorName, (body before).toArray,
      "runtime.Contract", 2⟩ = .ok (before.length + 2) := by
  refine Injection.Problem.find_of_searchWithin 16 (by simp [body]) ?_
  revert before
  decide +kernel

theorem weave_constructor (hbefore : before ∈ [kept, amountStored, receiverStored]) :
    MethodWeaver.weave (hierarchy before) (.exact (hierarchy before)) (vault before)
      (constructor before) = .ok (wovenConstructor before) := by
  have hpasses : checkEntry (.exact (hierarchy before)) (vault before) (constructor before)
        .payableEntry = .ok () ∧ (constructor before).firstFreeSlot = 2 ∧
      (body before).mapM (redirect (hierarchy before) (.exact (hierarchy before)) (vault before)) =
        .ok (body before) ∧
      forward (hierarchy before) (.exact (hierarchy before)) (vault before) (constructor before)
        (body before) = .ok (body before) ∧
      completeEntry (hierarchy before) (vault before) (constructor before) .payableEntry
        (body before) (before.length + 2) = .ok (wovenConstructor before) := by
    revert before
    decide +kernel
  obtain ⟨hcheck, hslot, hredirected, hforward, hcomplete⟩ := hpasses
  rw [weave_entry (role_payable hbefore) rfl hcheck rfl hredirected hforward
    (by rw [hslot]; decide), prologuePosition_constructor rfl rfl, hslot]
  exact (bind_eq_ok.2 ⟨_, find_superclass hbefore, hcomplete⟩)

/-- The class that is woven with its constructor. -/
def wovenVault (before : Code) : ClassDef :=
  match ClassWeaver.complete (hierarchy before) (vault before) [wovenConstructor before] with
  | .ok w => w.result
  | .error _ => vault before

theorem program_eq (hbefore : before ∈ [kept, amountStored, receiverStored]) :
    program before = .ofClasses [wovenVault before] := by
  obtain ⟨w, hw⟩ : ∃ w, ClassWeaver.complete (hierarchy before) (vault before)
      [wovenConstructor before] = .ok w := by
    refine exists_eq_ok_of_isOk ?_
    revert before
    decide +kernel
  have hmethods : (vault before).methods.mapM (MethodWeaver.weave (hierarchy before)
      (.exact (hierarchy before)) (vault before)) = .ok [wovenConstructor before] := by
    change [constructor before].mapM _ = _
    rw [List.mapM_cons, weave_constructor hbefore]
    rfl
  have hweave : weaveClass (hierarchy before) (vault before) = .ok w := by
    rw [weaveClass_eq_ok_iff, ClassWeaver.weave_eq_complete]
    exact bind_eq_ok.2 ⟨_, hmethods, hw⟩
  simp only [program, wovenResult, hweave, wovenVault, hw]

/-- The frame of a construction on behalf of the client. -/
def start : Frame where
  code := (woven kept).toArray
  locals := ((({} : Locals).insert 0 (.object 1)).insert 1 (.int 5)).insert 2 (.object 0)
  remaining := Frame.stepLimit

/-- The construction after a number of steps. -/
def thread (n : Nat) : Progress :=
  (program kept).after n (.running ⟨start, [], (client.allocate "bank.Vault").2⟩)

theorem thread_eq (n : Nat) : thread n = (Program.ofClasses [wovenVault kept]).after n
    (.running ⟨start, [], (client.allocate "bank.Vault").2⟩) := by
  rw [thread, program_eq List.mem_cons_self]

/-- The instruction that a thread executes next, with its operand stack. -/
def next? : Progress → Option (Instruction × List Value)
  | .running t => (t.frame.code[t.frame.position]?).map (·, t.frame.stack)
  | .ended _ => none

/-- The construction up to the prologue: it skips the store and then calls the superclass. -/
def executed : List (Instruction × List Value) :=
  [(.loadThis, []), (.load .int 1, [.object 1]), (.branchIf .ne 5, [.int 5, .object 1]),
    (.invoke .special "runtime.Contract" constructorName .void, [.object 1]), (.loadThis, [])]

theorem next?_thread : ∀ n < 5, next? (thread n) = executed[n]? := by
  simp only [thread_eq]
  decide +kernel

theorem result_thread : ∃ s, thread 9 = .returning none [] s := by
  have hrun : ((program kept).run 9 (.running ⟨start, [], (client.allocate "bank.Vault").2⟩)).map
      (·.result) = some (.ok none) := by
    rw [program_eq List.mem_cons_self]
    decide +kernel
  obtain ⟨⟨r, s⟩, hrun, rfl⟩ := Option.map_eq_some_iff.1 hrun
  exact ⟨s, Program.run_eq_some_iff.1 hrun⟩

/-- A construction that skips a store calls the superclass on its receiver, and records that, its
client and the amount. -/
theorem construct_records_client : ∃ (a : Constructing) (i j : Nat) (call : Call) (g : Frame),
    a.program = program kept ∧ a.thread 0 = thread 0 ∧
      a.RecordsAfterSuper i j call g ⟨.object 1, .object 0, some (.int 5)⟩ ∧
      call.args.head? = some (.object 1) := by
  have hmem : kept ∈ [kept, amountStored, receiverStored] := List.mem_cons_self
  obtain ⟨s', hreturn⟩ := result_thread
  have hroot : (program kept).classes.get? (hierarchy kept).config.contractRoot = none := by
    rw [program_eq hmem]
    decide +kernel
  obtain ⟨a, expected, i, j, call, g, e, hprogram, hstart, hcallers, -, hblock, hrecords, hj,
    hcaller, hcallee, -, hamount, hreceiver⟩ := @constructor_records_caller _ _ _ _ _ _
      (program kept) (.object 1) (.object 0) [.int 5]
      (weaveMethod_eq_ok_iff.2 (weave_constructor hmem)) (role_payable hmem) rfl rfl rfl rfl
      hroot rfl rfl _ start rfl rfl [] _ s' 9 none hreturn
  have hthread (l : Nat) : a.thread l = thread l := by
    rw [Constructing.thread, hprogram]
    exact congrArg ((program kept).after l) hstart
  have hlength : 4 ≤ a.block.length := by
    have hamount : amountType? (constructor kept) .payableEntry = some (.primitive .int) := rfl
    rw [hblock, hamount]
    simp [prologueCode]
  have hexecutes {l : Nat} {f : Frame} {k : Instruction} (hl : l < 5) (h : a.Executes l f k) :
      executed[l]? = some (k, f.stack) := by
    obtain ⟨⟨s, hs⟩, hk⟩ := h
    rw [← next?_thread l hl, ← hthread, hs, next?, hk]
    rfl
  have hspares (slot : UInt16) (hslot : slot = 0 ∨ slot = 1) : a.Spares j slot := by
    intro l hl f k hk
    have hclean : ∀ x ∈ executed, slot ∉ x.1.storedSlots := by
      rcases hslot with rfl | rfl <;> decide
    exact hclean _ (List.mem_of_getElem? (hexecutes (by omega) hk))
  obtain ⟨f, s, v, t, hi, hcall, -⟩ := hrecords.made
  obtain ⟨hinvoke, -, count, hcount, -, hargs, -⟩ := Frame.of_step_call hcall
  have hij := hrecords.lt
  have hcaller' := hexecutes (by omega) ⟨⟨s, hi⟩, hinvoke⟩
  -- the superclass call is the only one of these instructions
  obtain rfl : i = 3 := by
    rcases i with _ | _ | _ | _ | _ | i
    · cases hcaller'
    · cases hcaller'
    · cases hcaller'
    · rfl
    · cases hcaller'
    · omega
  obtain ⟨hsuper, hstack⟩ := Prod.ext_iff.1 (Option.some.inj hcaller')
  simp only at hsuper hstack
  have hlowest : a.SparesLowest 3 := by
    intro l hl hpos f k hk
    have hk := hexecutes (by omega) hk
    generalize f.stack = stack at hk ⊢
    rcases l with _ | _ | _ | l
    · omega
    · cases hk
      decide
    · cases hk
      decide
    · omega
  have hall : call.args.length = g.stack.length := by
    injection hsuper with hkind howner hname hsignature
    rw [hargs, hcount, ← hkind, ← hsignature, ← hstack]
    rfl
  obtain ⟨callee, caller, amount⟩ := e
  obtain rfl : callee = .object 1 := hcallee (hspares 0 (.inl rfl))
  obtain rfl : caller = .object 0 := hcaller
  obtain rfl : amount = some (.int 5) := hamount rfl (hspares 1 (.inr rfl))
  exact ⟨a, 3, j, call, g, hprogram, hthread 0, hrecords, hreceiver hlowest hall⟩

/-- The constructor is accepted with a stored amount or receiver, and records these. -/
theorem construct_records_stored :
    (weaveMethod (hierarchy amountStored) (vault amountStored) (constructor amountStored)).map
        (·.method.code) = .ok (some (woven amountStored)) ∧
    recorded amountStored =
      some (some (.object 1), #[⟨.object 1, .object 0, some (.int 7)⟩]) ∧
    (weaveMethod (hierarchy receiverStored) (vault receiverStored)
        (constructor receiverStored)).map (·.method.code) = .ok (some (woven receiverStored)) ∧
    recorded receiverStored =
      some (some (.object 1), #[⟨.object 2, .object 0, some (.int 5)⟩]) := by
  have hamount : amountStored ∈ [kept, amountStored, receiverStored] := by simp
  have hreceiver : receiverStored ∈ [kept, amountStored, receiverStored] := by simp
  rw [weaveMethod_eq_ok_iff.2 (weave_constructor hamount),
    weaveMethod_eq_ok_iff.2 (weave_constructor hreceiver), recorded, recorded, program_eq hamount,
    program_eq hreceiver]
  refine ⟨rfl, ?_, rfl, ?_⟩ <;> decide +kernel

end Vault

end StorageWeave
