import StorageWeave.Proofs.Exactness
import StorageWeave.Proofs.Hooks
import StorageWeave.Proofs.Splicing

/-!
# The prologue of an entry

An entry has a prologue spliced in that loads the receiver, the caller and for a payable entry the
amount, and hands them to a hook of the contract root. It records one entry and leaves the frame as
it was (`after_prologue`). The prologue of a method stands at the front, so an activation records
its caller first and then behaves as the body (`entry_records_caller`).
-/

namespace StorageWeave

open Bytecode Weaving

namespace Machine

/-- The state with one more recorded entry. -/
def State.withEntry (s : State) (e : EntryCall) : State :=
  { s with entries := s.entries.push e }

/-! ## Counted runs -/

namespace Program

variable {p : Program} {code block : Code} {a b : Point}

/-- A block of plain instructions takes as many steps as it has instructions. -/
theorem after_block (hp : Placed code a.position block) (hx : Point.exec? block a = some b)
    (r : Nat) (callers : List Frame) :
    p.after block.length (.running (a.thread code (r + block.length) callers)) =
      .running (b.thread code r callers) := by
  induction block generalizing a with
  | nil =>
    cases hx
    rfl
  | cons i rest ih =>
    rw [Point.exec?] at hx
    split at hx
    · next f s hf =>
      split at hx
      · next hposition =>
        have hrest : Placed code f.position rest := by
          rw [hposition]
          exact hp.tail
        rw [List.length_cons, ← Nat.add_assoc, after, step_thread hp.head, hf]
        exact ih hrest hx
      · cases hx
    · cases hx

/-- A call of a hook takes one step. -/
theorem after_hook {kind : InvokeKind} {owner name className : String} {signature : Signature}
    {args rest : List Value} {n : Nat} {locals : Locals} {s s' : State} {v : Option Value}
    (hi : code[n]? = some (.invoke kind owner name signature))
    (hargs : args.length = operandCount kind signature)
    (hcallee : p.callee ⟨kind, owner, name, signature, args⟩ s = .ok (.hook className))
    (hrun : (runHook p.config className name args).run s = (.ok v, s'))
    (r : Nat) (callers : List Frame) :
    p.after 1 (.running ((⟨n, args.reverse ++ rest, locals, s⟩ : Point).thread code (r + 1)
        callers)) =
      .running ((⟨n + 1, v.toList ++ rest, locals, s'⟩ : Point).thread code r callers) := by
  rw [after, step_thread hi, execute_invoke hargs]
  simp only [Step.within, enter, hcallee, hrun]
  rfl

end Program

end Machine

open Machine

/-! ## What a prologue does -/

namespace Weaving.MethodWeaver

variable {h : Hierarchy} {slot : UInt16} {expected : Option String} {amount : Option FieldType}

/-- The part of a prologue that puts the arguments of the hook on the stack. -/
def prologueLoads (h : Hierarchy) (slot : UInt16) (expected : Option String)
    (amount : Option FieldType) : Code :=
  [.loadThis, .load .reference slot]
    ++ (expected.filter fun e => e ≠ h.config.contractRoot).toList.map Instruction.checkCast
    ++ amount.toList.map fun type => .load type.valueKind 1

/-- The name of the hook of a prologue. -/
def hookName (amount : Option FieldType) : String :=
  if amount.isSome then Names.payableEntryHook else Names.entryHook

/-- The signature of the hook of a prologue. -/
def hookSignature (h : Hierarchy) (amount : Option FieldType) : Signature :=
  ⟨.reference h.config.contractRoot :: amount.toList, none⟩

theorem prologueCode_eq : prologueCode h slot expected amount =
    prologueLoads h slot expected amount ++
      [.invoke .special h.config.contractRoot (hookName amount) (hookSignature h amount)] := by
  cases amount <;>
    simp [prologueCode, prologueLoads, hookName, hookSignature]

theorem length_prologueCode_le : (prologueCode h slot expected amount).length ≤ 5 := by
  have hcast := (expected.filter fun e => e ≠ h.config.contractRoot).length_toList_le
  have hload := amount.length_toList_le
  simp only [prologueCode_eq, prologueLoads, List.length_append, List.length_map, List.length_cons,
    List.length_nil]
  omega

theorem prologueCode_ne_nil : prologueCode h slot expected amount ≠ [] := by
  simp [prologueCode_eq]

variable {locals : Locals} {this caller : Value} {value : Option Value}

/-- Casts leave the stack as it is. -/
theorem exec?_casts (expected : Option String) {n : Nat} {stack : List Value} {s : State} :
    Point.exec? (expected.toList.map Instruction.checkCast) ⟨n, stack, locals, s⟩ =
      some ⟨n + expected.toList.length, stack, locals, s⟩ := by
  cases expected <;> simp [Point.exec?, Point.frame, Frame.execute.eq_def, Frame.advance]

theorem exec?_prologueLoads {n : Nat} {stack : List Value} {s : State}
    (hthis : locals[(0 : UInt16)]? = some this) (hcaller : locals[slot]? = some caller)
    (hvalue : value.isSome = amount.isSome)
    (hamount : ∀ v ∈ value, locals[(1 : UInt16)]? = some v) :
    Point.exec? (prologueLoads h slot expected amount) ⟨n, stack, locals, s⟩ =
      some ⟨n + (prologueLoads h slot expected amount).length,
        (this :: caller :: value.toList).reverse ++ stack, locals, s⟩ := by
  have hloads : Point.exec? [.loadThis, .load .reference slot] ⟨n, stack, locals, s⟩ =
      some ⟨n + 2, caller :: this :: stack, locals, s⟩ := by
    simp [Instruction.loadThis, Point.exec?, Point.frame, Frame.execute.eq_def, Frame.advance,
      hthis, hcaller]
  rw [prologueLoads, Point.exec?_append, Point.exec?_append, hloads, Option.bind_some,
    exec?_casts, Option.bind_some]
  rcases amount with _ | type
  · obtain rfl : value = none := by simpa using hvalue
    simp [Point.exec?]
    omega
  · obtain ⟨v, rfl⟩ : ∃ v, value = some v := Option.isSome_iff_exists.1 hvalue
    simp [Point.exec?, Point.frame, Frame.execute.eq_def, Frame.advance, hamount v rfl]
    omega

/-- The hook of a prologue records one entry. -/
theorem run_hook (config : Config) (hvalue : value.isSome = amount.isSome) (s : State) :
    (runHook config config.contractRoot (hookName amount) (this :: caller :: value.toList)).run s =
      (.ok none, s.withEntry ⟨this, caller, value⟩) := by
  have hentry : Names.entryHook ≠ constructorName ∧ Names.entryHook ≠ Names.fetchLastUpdate := by
    decide
  have hpayable : Names.payableEntryHook ≠ constructorName ∧
      Names.payableEntryHook ≠ Names.fetchLastUpdate ∧
      Names.payableEntryHook ≠ Names.entryHook := by
    decide
  rcases amount with _ | type
  · obtain rfl : value = none := by simpa using hvalue
    simp [runHook, hookName, hentry]
    rfl
  · obtain ⟨v, rfl⟩ : ∃ v, value = some v := Option.isSome_iff_exists.1 hvalue
    simp [runHook, hookName, hpayable]
    rfl

variable {p : Program} {code : Code}

/-- **A prologue** records one entry, of the values in its slots, and changes nothing else. -/
theorem after_prologue {n : Nat} (hconfig : p.config = h.config)
    (hroot : p.classes.get? h.config.contractRoot = none)
    (hplaced : Placed code n (prologueCode h slot expected amount))
    (hthis : locals[(0 : UInt16)]? = some this) (hcaller : locals[slot]? = some caller)
    (hvalue : value.isSome = amount.isSome) (hamount : ∀ v ∈ value, locals[(1 : UInt16)]? = some v)
    (r : Nat) (stack : List Value) (callers : List Frame) (s : State) :
    p.after (prologueCode h slot expected amount).length
        (.running ((⟨n, stack, locals, s⟩ : Point).thread code
          (r + (prologueCode h slot expected amount).length) callers)) =
      .running ((⟨n + (prologueCode h slot expected amount).length, stack, locals,
        s.withEntry ⟨this, caller, value⟩⟩ : Point).thread code r callers) := by
  have hloads : Point.exec? (prologueLoads h slot expected amount) ⟨n, stack, locals, s⟩ = _ :=
    exec?_prologueLoads hthis hcaller hvalue hamount
  have hcallee : p.callee ⟨.special, h.config.contractRoot, hookName amount,
      hookSignature h amount, this :: caller :: value.toList⟩ s =
        .ok (.hook h.config.contractRoot) := by
    rw [Program.callee_special, Program.resolve, Program.resolveFrom, hroot]
  have hrun : (runHook p.config h.config.contractRoot (hookName amount)
      (this :: caller :: value.toList)).run s = (.ok none, s.withEntry ⟨this, caller, value⟩) := by
    rw [hconfig]
    exact run_hook h.config hvalue s
  have hargs : (this :: caller :: value.toList).length =
      Program.operandCount .special (hookSignature h amount) := by
    cases value <;> cases amount <;> simp_all [Program.operandCount, hookSignature,
      InvokeKind.hasReceiver]
  rw [prologueCode_eq] at hplaced ⊢
  rw [List.length_append, List.length_singleton, ← Nat.add_assoc, Program.after_add,
    Nat.add_right_comm r, Program.after_block hplaced.left hloads]
  rw [Program.after_hook hplaced.right.head hargs hcallee hrun,
    Nat.add_assoc]
  rfl

/-! ## What an entry is woven to -/

/--
The weaving of an entry with code: its field accesses are redirected and its calls of entries
forwarded, which gives the body, and the prologue is spliced into the body at a position.
-/
structure EntryWoven (h : Hierarchy) (c : ClassDef) (m : MethodDef) (role : Role) (code : Code)
    (w : WovenMethod) (body woven : Code) (position : Nat) (expected : Option String) : Prop where
  receiver : m.isStatic = false
  amount : role = .payableEntry → m.signature.params ≠ []
  slot : m.firstFreeSlot < 0x10000
  passes : ∃ redirected, code.mapM (redirect h (.exact h) c) = .ok redirected ∧
    forward h (.exact h) c m redirected = .ok body
  site : (prologuePosition c m m.firstFreeSlot.toUInt16 body : Except WeaveError Nat) =
    .ok position
  inserted : Code.insert? body position (prologueCode h m.firstFreeSlot.toUInt16 expected
    (amountType? m role)) false = some woven
  result : w.method.code = some woven

variable {c : ClassDef} {m : MethodDef} {role : Role} {w : WovenMethod}

theorem of_checkEntry (hentry : role.isEntry = true)
    (hcheck : checkEntry (.exact h) c m role = .ok ()) :
    m.isStatic = false ∧ (role = .payableEntry → m.signature.params ≠ []) := by
  unfold checkEntry at hcheck
  simp only [hentry, Bool.not_true, Bool.false_eq_true, if_false] at hcheck
  split at hcheck
  · cases hcheck
  · next hstatic =>
    split at hcheck
    · cases hcheck
    · next hamount =>
      refine ⟨by simpa using hstatic, fun hpayable hnil => hamount ⟨hpayable, ?_⟩⟩
      rw [hnil]
      rfl

theorem callerSlot_eq_ok {slot : UInt16}
    (hslot : (callerSlot c m : Except WeaveError UInt16) = .ok slot) :
    m.firstFreeSlot < 0x10000 ∧ slot = m.firstFreeSlot.toUInt16 := by
  unfold callerSlot at hslot
  split at hslot
  · next hfits => exact ⟨hfits, (Except.ok.inj hslot).symm⟩
  · cases hslot

theorem injectPrologue_eq_ok {body woven : Code} {prologue : Prologue}
    (hinject : injectPrologue h (.exact h) c m role body = .ok (woven, prologue)) :
    ∃ position expected, m.firstFreeSlot < 0x10000 ∧
      (prologuePosition c m m.firstFreeSlot.toUInt16 body : Except WeaveError Nat) = .ok position ∧
      Code.insert? body position (prologueCode h m.firstFreeSlot.toUInt16 expected
        (amountType? m role)) false = some woven := by
  obtain ⟨slot, hslot, hinject⟩ := bind_eq_ok.1 hinject
  obtain ⟨position, hposition, hinject⟩ := bind_eq_ok.1 hinject
  obtain ⟨expected, -, hinject⟩ := bind_eq_ok.1 hinject
  obtain ⟨hfits, rfl⟩ := callerSlot_eq_ok hslot
  dsimp only at hinject
  split at hinject
  · next hinserted =>
    cases hinject
    exact ⟨position, expected, hfits, hposition, hinserted⟩
  · cases hinject

/-- An entry with code that the weaver accepts is woven so. -/
theorem exists_entryWoven (hw : weave h (.exact h) c m = .ok w)
    (hrole : (Oracle.exact h).role h.config ⟨c.name, m.name, m.signature⟩ = .ok role)
    (hentry : role.isEntry = true) (hcode : m.code = some code) :
    ∃ body woven position expected,
      EntryWoven h c m role code w body woven position expected := by
  obtain ⟨role', code', hrole', hcheck, hmethod, hcode'⟩ := weave_eq_ok hw
  cases hrole.symm.trans hrole'
  rw [hcode] at hcode'
  cases hcode' with
  | @some _ woven hwoven =>
    obtain ⟨prologue, hpasses, -⟩ := hwoven
    obtain ⟨redirected, body, hredirected, hbody, ⟨hplain, -⟩ | ⟨-, prologue', hinject⟩⟩ :=
      passes_eq_ok hpasses
    · cases hentry.symm.trans hplain
    obtain ⟨position, expected, hfits, hposition, hinserted⟩ := injectPrologue_eq_ok hinject
    obtain ⟨hstatic, hamount⟩ := of_checkEntry hentry hcheck
    exact ⟨body, woven, position, expected, hstatic, hamount, hfits,
      ⟨redirected, hredirected, hbody⟩, hposition, hinserted, by rw [hmethod]⟩

/-- What is left of the weaving of an entry once the position of its prologue is known. -/
def completeEntry (h : Hierarchy) (c : ClassDef) (m : MethodDef) (role : Role) (body : Code)
    (position : Nat) : Except WeaveError WovenMethod := do
  let ref : MethodRef := ⟨c.name, m.name, m.signature⟩
  let expected ← (Oracle.exact h).callerType h.config ref
  match Code.insert? body position
      (prologueCode h m.firstFreeSlot.toUInt16 expected (amountType? m role)) false with
  | some woven =>
    checkCode c m woven
    return ⟨{ m with signature := h.config.widen m.signature, code := some woven },
      some ⟨ref, role, position⟩⟩
  | none => throw (.targetOverflow c.name m.name)

/-- An entry with code is woven by finding a position for its prologue and completing it there. -/
theorem weave_entry {redirected body : Code}
    (hrole : (Oracle.exact h).role h.config ⟨c.name, m.name, m.signature⟩ = .ok role)
    (hentry : role.isEntry = true) (hcheck : checkEntry (.exact h) c m role = .ok ())
    (hcode : m.code = some code)
    (hredirected : code.mapM (redirect h (.exact h) c) = .ok redirected)
    (hbody : forward h (.exact h) c m redirected = .ok body)
    (hslot : m.firstFreeSlot < 0x10000) :
    weave h (.exact h) c m =
      prologuePosition c m m.firstFreeSlot.toUInt16 body >>= completeEntry h c m role body := by
  have hcaller : (callerSlot c m : Except WeaveError UInt16) = .ok m.firstFreeSlot.toUInt16 :=
    if_pos hslot
  have hok {α β : Type} (a : α) (f : α → Except WeaveError β) : Except.ok a >>= f = f a := rfl
  simp only [weave, hrole, hcheck, hcode, weaveCode, hredirected, hbody, hentry, injectPrologue,
    hcaller, hok, if_true, bind_assoc]
  congr 1
  funext position
  simp only [completeEntry]
  congr 1
  funext expected
  generalize Code.insert? body position _ false = inserted
  cases inserted <;> rfl

/-- The prologue of a constructor goes where the search finds the superclass call. -/
theorem prologuePosition_constructor (hconstructor : m.isConstructor = true) {superclass : String}
    (hsuper : c.superclass = some superclass) (slot : UInt16) (body : Code) :
    (prologuePosition c m slot body : Except WeaveError Nat) =
      Injection.Problem.find ⟨c.name, m.name, body.toArray, superclass, slot⟩ := by
  simp only [prologuePosition, hconstructor, hsuper, if_true, ofExcept_eq]

/-- The amount is the first parameter of a payable entry. -/
theorem isSome_amountType? (hamount : role = .payableEntry → m.signature.params ≠ [])
    {args : List Value} (hargs : args.map Value.size = m.signature.params.map FieldType.size) :
    (if role = .payableEntry then args.head? else none).isSome =
      (amountType? m role).isSome := by
  unfold amountType?
  split
  · have hlength : args.length = m.signature.params.length := by
      simpa using congrArg List.length hargs
    cases args <;> cases hparams : m.signature.params <;> simp_all
  · rfl

end Weaving.MethodWeaver

open Weaving.MethodWeaver

namespace Machine

theorem firstFreeSlot_eq {m : MethodDef} {this : Value} {args : List Value}
    (hstatic : m.isStatic = false) (hthis : this.size = 1)
    (hargs : args.map Value.size = m.signature.params.map FieldType.size) :
    m.firstFreeSlot = slotCount (this :: args) := by
  simp [MethodDef.firstFreeSlot, hstatic, Signature.paramSlots, slotCount, hthis, hargs]

/-- The locals of an activation of an entry: the receiver, the arguments and the caller. -/
theorem exists_entryLocals {m : MethodDef} {this caller : Value} {args : List Value}
    (hstatic : m.isStatic = false) (hthis : this.size = 1)
    (hargs : args.map Value.size = m.signature.params.map FieldType.size)
    (hslot : m.firstFreeSlot + caller.size < slotBound) :
    ∃ locals, layOut 0 {} (this :: args ++ [caller]) = .ok locals ∧
      locals[(0 : UInt16)]? = some this ∧
      locals[m.firstFreeSlot.toUInt16]? = some caller ∧
      ∀ v ∈ args.head?, locals[(1 : UInt16)]? = some v := by
  rw [firstFreeSlot_eq hstatic hthis hargs] at hslot ⊢
  obtain ⟨locals, hlay, hget, -⟩ := exists_layOut (this :: args ++ [caller]) 0 {}
    (by rw [slotCount_append, Nat.zero_add]; simpa using hslot)
  refine ⟨locals, hlay, hget [] this (args ++ [caller]) rfl, ?_, ?_⟩
  · simpa using hget (this :: args) caller [] rfl
  · intro v hv
    obtain ⟨rest, rfl⟩ : ∃ rest, args = v :: rest := by
      cases args with
      | nil => cases hv
      | cons a rest => exact ⟨rest, by simpa using hv⟩
    simpa [hthis] using hget [this] v (rest ++ [caller]) rfl

/--
An activation, at `f` before its first instruction, records an entry in its first `k` steps, and
nothing else happens in them. From then on it goes step for step with an activation of the body
that has the same locals and as many steps left.
-/
def RecordsFirst (p : Program) (body woven : Code) (f : Frame) (k : Nat) (e : EntryCall) : Prop :=
  ∀ (s : State) (callers : List Frame),
    let g : Frame := ⟨body.toArray, 0, [], f.locals, f.remaining - k⟩
    p.after k (.running ⟨f, callers, s⟩) =
      .running ⟨g.shifted k woven.toArray, callers, s.withEntry e⟩ ∧
    ∀ n, Beside k body.toArray woven.toArray callers
      (p.after n (.running ⟨g, callers, s.withEntry e⟩))
      (p.after (k + n) (.running ⟨f, callers, s⟩))

/-- A prologue at the front of spliced code is what an activation does first. -/
theorem recordsFirst_of_prologue {p : Program} {body woven block : Code} {τ : Target → Target}
    {locals : Locals} {e : EntryCall} (hsplices : Splices τ body 0 block woven)
    (hlimit : block.length ≤ Frame.stepLimit)
    (hblock : ∀ r s callers, p.after block.length
        (.running ((⟨0, [], locals, s⟩ : Point).thread woven (r + block.length) callers)) =
      .running ((⟨0 + block.length, [], locals, s.withEntry e⟩ : Point).thread woven r callers)) :
    RecordsFirst p body woven ⟨woven.toArray, 0, [], locals, Frame.stepLimit⟩ block.length e := by
  intro s callers g
  have hprologue : p.after block.length
      (.running ⟨⟨woven.toArray, 0, [], locals, Frame.stepLimit⟩, callers, s⟩) =
        .running ⟨g.shifted block.length woven.toArray, callers, s.withEntry e⟩ := by
    have hafter := hblock (Frame.stepLimit - block.length) s callers
    rw [Nat.sub_add_cancel hlimit] at hafter
    exact hafter
  have hstart : Beside block.length body.toArray woven.toArray callers
      (.running ⟨g, callers, s.withEntry e⟩)
      (.running ⟨g.shifted block.length woven.toArray, callers, s.withEntry e⟩) :=
    .running rfl
  refine ⟨hprologue, fun n => ?_⟩
  rw [Program.after_add, hprologue]
  exact hstart.after p hsplices.getElem?_front hsplices.targets_front n

end Machine

/--
**The prologue of an entry method records its caller once.** The body is the code with its field
accesses redirected and its calls of entries forwarded. The caller is in the slot after the
parameters; a caller on one slot, as contracts are, fits there if that slot is below 65535.
-/
theorem entry_records_caller {h : Hierarchy} {c : ClassDef} {m : MethodDef} {w : WovenMethod}
    {role : Role} {code : Code} {p : Program} {this caller : Value} {args : List Value}
    (hw : weaveMethod h c m = .ok w)
    (hrole : (Oracle.exact h).role h.config ⟨c.name, m.name, m.signature⟩ = .ok role)
    (hentry : role.isEntry = true) (hmethod : m.isConstructor = false) (hcode : m.code = some code)
    (hconfig : p.config = h.config) (hroot : p.classes.get? h.config.contractRoot = none)
    (hthis : this.size = 1)
    (hargs : args.map Value.size = m.signature.params.map FieldType.size)
    (hslot : m.firstFreeSlot + caller.size < slotBound) :
    ∃ redirected body woven f k,
      code.mapM (redirect h (.exact h) c) = .ok redirected ∧
      forward h (.exact h) c m redirected = .ok body ∧
      w.method.code = some woven ∧ woven.length = k + body.length ∧
      Frame.start woven (this :: args ++ [caller]) = .ok f ∧
      f.locals[(1 + m.signature.paramSlots).toUInt16]? = some caller ∧
      RecordsFirst p body woven f k
        ⟨this, caller, if role = .payableEntry then args.head? else none⟩ := by
  obtain ⟨body, woven, position, expected, hwoven⟩ :=
    exists_entryWoven (weaveMethod_exact hw) hrole hentry hcode
  obtain ⟨redirected, hredirected, hbody⟩ := hwoven.passes
  obtain ⟨locals, hlay, hthis', hcaller, hfirst⟩ :=
    exists_entryLocals hwoven.receiver hthis hargs hslot
  obtain rfl : position = 0 := by
    have hsite := hwoven.site
    simp only [prologuePosition, hmethod, Bool.false_eq_true, if_false] at hsite
    exact (Except.ok.inj hsite).symm
  obtain ⟨-, τ, hsplices⟩ := exists_splices hwoven.inserted prologueCode_ne_nil
  have hamount : ∀ v ∈ (if role = .payableEntry then args.head? else none),
      locals[(1 : UInt16)]? = some v := by
    intro v hv
    split at hv
    · exact hfirst v hv
    · cases hv
  have hfree : m.firstFreeSlot = 1 + m.signature.paramSlots := by
    simp [MethodDef.firstFreeSlot, hwoven.receiver]
  refine ⟨redirected, body, woven, ⟨woven.toArray, 0, [], locals, Frame.stepLimit⟩, _,
    hredirected, hbody, hwoven.result, hsplices.length, ?_, ?_, ?_⟩
  · simp only [Frame.start, hlay]
    rfl
  · rw [← hfree]
    exact hcaller
  · refine recordsFirst_of_prologue hsplices (Nat.le_trans length_prologueCode_le (by decide)) ?_
    intro r s callers
    exact after_prologue hconfig hroot hsplices.placed hthis' hcaller
      (isSome_amountType? hwoven.amount hargs) hamount r [] callers s

namespace Shop

/-- A payable entry that calls another entry in a loop back to its first instruction. -/
def payCode : Code :=
  [.loadThis, .invoke .virtual "shop.Till" "note" .void, .increment 3 (-1), .load .int 3,
    .branchIf .ne 0, .return none]

def pay : MethodDef where
  name := "pay"
  signature := ⟨[.primitive .long, .primitive .int], none⟩
  annotations := [⟨"runtime.Payable", none⟩]
  code := some payCode

/-- A contract with two entries. -/
def till : ClassDef where
  name := "shop.Till"
  superclass := some "runtime.Contract"
  methods := [pay, {
    name := "note"
    signature := .void
    annotations := [⟨"runtime.Entry", none⟩]
    code := some [.return none] }]

def hierarchy : Hierarchy := ⟨⟨[⟨till, till.toBytes⟩]⟩, {}⟩

/-- The body of the payable entry: the call hands the receiver on. -/
def payBody : Code :=
  [.loadThis, .loadThis,
    .invoke .virtual "shop.Till" "note" ⟨[.reference "runtime.Contract"], none⟩,
    .increment 3 (-1), .load .int 3, .branchIf .ne 0, .return none]

/-- The woven payable entry: the loop goes back to the body, past the prologue. -/
def payWoven : Code :=
  [.loadThis, .load .reference 4, .load .long 1, .invoke .special "runtime.Contract" "payableEntry"
      ⟨[.reference "runtime.Contract", .primitive .long], none⟩,
    .loadThis, .loadThis,
    .invoke .virtual "shop.Till" "note" ⟨[.reference "runtime.Contract"], none⟩,
    .increment 3 (-1), .load .int 3, .branchIf .ne 4, .return none]

def program : Program := .ofClasses [wovenResult hierarchy till]

theorem weaveMethod_pay : weaveMethod hierarchy till pay = .ok
      ⟨{ pay with
          signature := ⟨[.primitive .long, .primitive .int, .reference "runtime.Contract"], none⟩
          code := some payWoven },
        some ⟨⟨"shop.Till", "pay", pay.signature⟩, .payableEntry, 0⟩⟩ ∧
    (Oracle.exact hierarchy).role hierarchy.config ⟨till.name, pay.name, pay.signature⟩ =
      .ok .payableEntry ∧
    payCode.mapM (redirect hierarchy (.exact hierarchy) till) = .ok payCode ∧
    forward hierarchy (.exact hierarchy) till pay payCode = .ok payBody := by
  decide +kernel

/-- A payment of five records itself once, however often the loop runs. -/
theorem pay_records_caller : ∃ f,
    Frame.start payWoven [.object 0, .long 5, .int 2, .object 1] = .ok f ∧
      RecordsFirst program payBody payWoven f 4 ⟨.object 0, .object 1, some (.long 5)⟩ := by
  obtain ⟨hw, hrole, hpass, hforward⟩ := weaveMethod_pay
  obtain ⟨redirected, body, woven, f, k, hredirected, hbody, hwoven, hlength, hf, -, hrecords⟩ :=
    @entry_records_caller hierarchy till pay _ _ _ program (.object 0) (.object 1)
      [.long 5, .int 2] hw hrole rfl (by decide) rfl rfl (by decide +kernel) rfl rfl (by decide)
  cases hpass.symm.trans hredirected
  cases hforward.symm.trans hbody
  cases hwoven
  obtain rfl : k = 4 := by simpa [payWoven, payBody] using hlength.symm
  exact ⟨f, hf, hrecords⟩

end Shop

end StorageWeave
