import StorageWeave.Proofs.Deserialization
import StorageWeave.Proofs.Frames

/-!
# Declared effects and the machine

Instructions declare how many slots they take from the operand stack and leave there, and where
control goes. The machine counts values and not slots. Where what an instruction finds is of the
kinds that it names (`Frame.Suits`), a turn of an activation (`Program.Turn`) changes the number of
slots as declared and goes on where declared (`Program.turn_declared`). It finds the slots that it
is declared to take with one exception: a cast does not look at the stack, so it goes on also when
there is nothing to cast (`Pawnshop.cast_goes_on`).
-/

namespace StorageWeave

open Bytecode

/-! ## Kinds -/

/-- The kinds of the operands that the machine takes from the stack for an instruction that goes on,
the top first. A cast takes none, and `dup` and `pop` name no kind. -/
def Bytecode.Instruction.operandKinds : Instruction → List ValueKind
  | .store kind _ => [kind]
  | .getField _ _ _ => [.reference]
  | .putField _ _ type => [type.valueKind, .reference]
  | .invoke kind _ _ signature =>
    (signature.params.map FieldType.valueKind).reverse ++
      if kind.hasReceiver then [.reference] else []
  | .arithmetic _ kind => [kind, kind]
  | .compare kind => [kind, kind]
  | .rawBits kind => [(FieldType.primitive kind).valueKind]
  | .branchIf _ _ => [.int]
  | .branchIfCompare kind _ _ => [kind, kind]
  | .branchIfNull _ _ => [.reference]
  | .switch _ _ => [.int]
  | _ => []

/-- Whether an instruction is a cast. -/
def Bytecode.Instruction.isCast : Instruction → Bool
  | .checkCast _ => true
  | _ => false

/-- Whether a call returns what its signature says: a value of the kind of the result, or none. -/
def Bytecode.Signature.returns (signature : Signature) (v : Option Machine.Value) : Bool :=
  match signature.ret, v with
  | none, none => true
  | some type, some v => v.hasKind type.valueKind
  | _, _ => false

namespace Machine

/-- What an instruction finds is of the kinds that it names: the operands on the stack, the local
that it loads and the field that it reads. What `dup` and `pop` find takes one slot. -/
structure Frame.Suits (f : Frame) (i : Instruction) (s : State) : Prop where
  operands : ∀ q ∈ f.stack.zip i.operandKinds, q.1.hasKind q.2 = true
  narrow : i = .dup ∨ i = .pop → ∀ v ∈ f.stack.head?, v.size = 1
  loaded : ∀ kind slot, i = .load kind slot → ∀ v ∈ f.locals[slot]?, v.hasKind kind = true
  read : ∀ owner name type, i = .getField owner name type → ∀ object ∈ f.stack.head?,
    ∀ v ∈ s.field? object name, v.hasKind type.valueKind = true

/--
A turn of an activation that stays in it: an instruction that goes on, or a call together with all
that is run for it until it returns what its signature says.
-/
inductive Program.Turn (p : Program) (f : Frame) (s : State) : Frame → State → Prop
  | next {g : Frame} {t : State} : f.step s = .next g t → Turn p f s g t
  | returned {c : Call} {g : Frame} {t u : State} {v : Option Value} {fuel : Nat} :
      f.step s = .call c g t → p.call fuel c t = some ⟨.ok v, u⟩ →
      c.signature.returns v = true → Turn p f s (g.resume v) u

/-! ## Slots -/

namespace Value

theorem size_of_hasKind {kind : ValueKind} {v : Value} (h : v.hasKind kind = true) :
    v.size = kind.size := by
  cases kind <;> cases v <;> first | rfl | cases h

theorem size_ofConstant (value : Constant) : (ofConstant value).size = value.size := by
  cases value <;> rfl

/-- An `int` is of no other kind. -/
theorem eq_int_of_toInt {kind : ValueKind} {v : Value} {x : Int32} (h : v.toInt = .ok x)
    (hkind : v.hasKind kind = true) : kind = .int := by
  cases v with
  | int y => cases kind <;> first | rfl | cases hkind
  | _ => cases h

end Value

theorem exists_of_map_eq_ok {α : Type} {f : α → Value} {x : Except Fault α} {v : Value}
    (h : x.map f = .ok v) : ∃ a, f a = v := by
  cases x with
  | error e => cases h
  | ok a => exact ⟨a, Except.ok.inj h⟩

theorem size_of_arithmetic {op : ArithOp} {a b v : Value} (h : arithmetic op a b = .ok v) :
    v.size = a.size := by
  unfold arithmetic at h
  split at h
  · obtain ⟨x, rfl⟩ := exists_of_map_eq_ok h
    rfl
  · obtain ⟨x, rfl⟩ := exists_of_map_eq_ok h
    rfl
  · obtain ⟨x, rfl⟩ := exists_of_map_eq_ok h
    rfl
  · cases h

theorem size_of_compareValues {a b v : Value} (h : compareValues a b = .ok v) : v.size = 1 := by
  unfold compareValues at h
  split at h <;> cases h <;> rfl

theorem size_of_rawBits {kind : PrimitiveKind} {a v : Value} (h : rawBits kind a = .ok v) :
    v.size = kind.size := by
  unfold rawBits at h
  split at h <;> cases h <;> rfl

/-- The values of a branch that compares take one slot each. -/
theorem size_of_comparisonHolds {kind : ValueKind} {condition : Condition} {a b : Value}
    {taken : Bool} (h : comparisonHolds kind condition a b = .ok taken)
    (ha : a.hasKind kind = true) : kind.size = 1 := by
  cases kind with
  | reference => rfl
  | int | long | float | double =>
    obtain ⟨x, hx, -⟩ := Weaving.bind_eq_ok.1 h
    rw [Value.eq_int_of_toInt hx ha]
    rfl

/-- Operands of their kinds take the slots of the kinds. -/
theorem slotCount_take {stack : List Value} {kinds : List ValueKind}
    (hkinds : ∀ q ∈ stack.zip kinds, q.1.hasKind q.2 = true)
    (hlength : kinds.length ≤ stack.length) :
    slotCount (stack.take kinds.length) = (kinds.map ValueKind.size).sum := by
  induction kinds generalizing stack with
  | nil => rfl
  | cons kind kinds ih =>
    rcases stack with _ | ⟨v, stack⟩
    · cases hlength
    · rw [List.zip_cons_cons] at hkinds
      obtain ⟨hv, hrest⟩ := List.forall_mem_cons.1 hkinds
      rw [List.length_cons, List.take_succ_cons, slotCount_cons, List.map_cons, List.sum_cons,
        Value.size_of_hasKind hv, ih hrest (Nat.le_of_succ_le_succ hlength)]

theorem sum_operandKinds_invoke (kind : InvokeKind) (owner name : String) (signature : Signature) :
    ((Instruction.invoke kind owner name signature).operandKinds.map ValueKind.size).sum =
      (Instruction.invoke kind owner name signature).stackEffect.pops := by
  have hparams : ((signature.params.map FieldType.valueKind).map ValueKind.size).sum =
      signature.paramSlots := by
    rw [List.map_map, Signature.paramSlots, ← List.sum_eq_foldr]
    exact congrArg List.sum (List.map_congr_left fun type _ => type.size_valueKind)
  simp only [Instruction.operandKinds, Instruction.stackEffect, List.map_append, List.map_reverse,
    List.sum_append, List.sum_reverse, hparams]
  cases kind.hasReceiver
  · exact Nat.add_comm _ _
  · exact Nat.add_comm _ _

theorem slotCount_of_returns {signature : Signature} {v : Option Value}
    (h : signature.returns v = true) : slotCount v.toList = signature.returnSlots := by
  unfold Signature.returns at h
  unfold Signature.returnSlots
  split at h
  · next hret => rw [hret]; rfl
  · next type v hret =>
    rw [hret, Option.toList_some, slotCount_cons, slotCount_nil, Value.size_of_hasKind h,
      type.size_valueKind]
    rfl
  · cases h

namespace Frame

variable {f : Frame} {i : Instruction} {s t : State}

/-- The stack has changed as an instruction declares, and has held the slots that it takes, unless
the instruction is a cast and the stack was empty. -/
structure Balances (i : Instruction) (before after : List Value) : Prop where
  slots : slotCount after + i.stackEffect.pops = slotCount before + i.stackEffect.pushes
  enough : i.stackEffect.pops ≤ slotCount before ∨ i.isCast = true ∧ before = []

/-- What the steps of an instruction do to the stack. A call has yet to push its result. -/
def Accounts (i : Instruction) (before : List Value) : Step → Prop
  | .next g _ => Balances i before g.stack
  | .call _ g _ => slotCount g.stack + i.stackEffect.pops = slotCount before
  | .done _ _ => True
  | .fault _ _ => True

theorem balances_append (taken pushed rest : List Value)
    (htaken : slotCount taken = i.stackEffect.pops)
    (hpushed : slotCount pushed = i.stackEffect.pushes) :
    Balances i (taken ++ rest) (pushed ++ rest) := by
  constructor
  · rw [slotCount_append, slotCount_append]
    omega
  · rw [slotCount_append]
    omega

theorem balances_cast (className : String) (stack : List Value) :
    Balances (.checkCast className) stack stack where
  slots := rfl
  enough := by
    rcases stack with _ | ⟨v, stack⟩
    · exact .inr ⟨rfl, rfl⟩
    · rw [slotCount_cons]
      exact .inl (Nat.le_add_right_of_le v.size_pos)

/-- The operands of an instruction take the slots of their kinds. -/
theorem Suits.slotCount_operands (h : f.Suits i s)
    (hlength : i.operandKinds.length ≤ f.stack.length) :
    slotCount (f.stack.take i.operandKinds.length) = (i.operandKinds.map ValueKind.size).sum :=
  slotCount_take h.operands hlength

/-- What reading a field gives is of the kind of the field. -/
theorem Suits.hasKind_read {owner name : String} {type : FieldType} {object : Value}
    {stack : List Value} (h : f.Suits (.getField owner name type) s)
    (hstack : f.stack = object :: stack) :
    ((s.field? object name).getD (.ofType type)).hasKind type.valueKind = true := by
  cases hv : s.field? object name with
  | none => exact Value.hasKind_ofType type
  | some v => exact h.read owner name type rfl object (by rw [hstack]; rfl) v hv

/-- **Instructions account for the stack** as they declare. -/
theorem accounts_execute (hsuits : f.Suits i s) : Accounts i f.stack (f.execute i s) := by
  obtain ⟨code, position, stack, locals, remaining⟩ := f
  cases i with
  | load kind slot =>
    simp only [execute.eq_def]
    cases hv : locals[slot]? with
    | none => trivial
    | some v =>
      have hkind := hsuits.loaded kind slot rfl v hv
      exact balances_append [] [v] stack rfl (Value.size_of_hasKind hkind)
  | store _ _ | branchIfNull _ _ =>
    cases stack with
    | nil => trivial
    | cons v stack =>
      have htaken := hsuits.slotCount_operands (Nat.le_add_left 1 _)
      exact balances_append [v] [] stack htaken rfl
  | increment slot delta =>
    simp only [execute.eq_def]
    cases locals[slot]? with
    | none => trivial
    | some v =>
      cases v with
      | int x => exact balances_append [] [] stack rfl rfl
      | _ => trivial
  | const value =>
    exact balances_append [] [.ofConstant value] stack rfl (Value.size_ofConstant value)
  | new className => exact balances_append [] [(s.allocate className).1] stack rfl rfl
  | checkCast className => exact balances_cast className stack
  | getField owner name type =>
    cases stack with
    | nil => trivial
    | cons object stack =>
      have htaken := hsuits.slotCount_operands (Nat.le_add_left 1 _)
      refine balances_append [object] [_] stack htaken ?_
      exact (Value.size_of_hasKind (hsuits.hasKind_read rfl)).trans type.size_valueKind
  | putField owner name type =>
    rcases stack with _ | ⟨v, _ | ⟨object, stack⟩⟩
    · trivial
    · trivial
    · simp only [execute.eq_def]
      cases s.place? object with
      | none => trivial
      | some o =>
        have htaken := hsuits.slotCount_operands (Nat.le_add_left 2 _)
        refine balances_append [v, object] [] stack (htaken.trans ?_) rfl
        show type.valueKind.size + 1 = 1 + type.size
        rw [type.size_valueKind, Nat.add_comm]
  | dup =>
    cases stack with
    | nil => trivial
    | cons v stack =>
      have hsize : v.size = 1 := hsuits.narrow (.inl rfl) v rfl
      exact balances_append [v] [v, v] stack (by simp [hsize, Instruction.stackEffect])
        (by simp [hsize, Instruction.stackEffect])
  | pop =>
    cases stack with
    | nil => trivial
    | cons v stack =>
      have hsize : v.size = 1 := hsuits.narrow (.inr rfl) v rfl
      exact balances_append [v] [] stack hsize rfl
  | rawBits kind =>
    cases stack with
    | nil => trivial
    | cons v stack =>
      simp only [execute.eq_def]
      cases hbits : StorageWeave.Machine.rawBits kind v with
      | error e => trivial
      | ok x =>
        have htaken := hsuits.slotCount_operands (Nat.le_add_left 1 _)
        refine balances_append [v] [x] stack (htaken.trans ?_) (size_of_rawBits hbits)
        exact FieldType.size_valueKind (.primitive kind)
  | arithmetic op kind =>
    rcases stack with _ | ⟨b, _ | ⟨a, stack⟩⟩
    · trivial
    · trivial
    · simp only [execute.eq_def]
      cases hresult : StorageWeave.Machine.arithmetic op a b with
      | error e => trivial
      | ok x =>
        have htaken := hsuits.slotCount_operands (Nat.le_add_left 2 _)
        have ha : a.hasKind kind = true := hsuits.operands (a, kind) (.tail _ (.head _))
        refine balances_append [b, a] [x] stack (htaken.trans (Nat.two_mul kind.size).symm) ?_
        exact (size_of_arithmetic hresult).trans (Value.size_of_hasKind ha)
  | compare kind =>
    rcases stack with _ | ⟨b, _ | ⟨a, stack⟩⟩
    · trivial
    · trivial
    · simp only [execute.eq_def]
      cases hresult : compareValues a b with
      | error e => trivial
      | ok x =>
        have htaken := hsuits.slotCount_operands (Nat.le_add_left 2 _)
        exact balances_append [b, a] [x] stack (htaken.trans (Nat.two_mul kind.size).symm)
          (size_of_compareValues hresult)
  | goto target => exact balances_append [] [] stack rfl rfl
  | branchIf _ _ | switch _ _ =>
    rcases stack with _ | ⟨v, stack⟩
    · trivial
    · simp only [execute.eq_def]
      cases v.toInt with
      | error e => trivial
      | ok x =>
        have htaken := hsuits.slotCount_operands (Nat.le_add_left 1 _)
        exact balances_append [v] [] stack htaken rfl
  | branchIfCompare kind condition target =>
    rcases stack with _ | ⟨b, _ | ⟨a, stack⟩⟩
    · trivial
    · trivial
    · simp only [execute.eq_def]
      cases hholds : comparisonHolds kind condition a b with
      | error e => trivial
      | ok taken =>
        have htaken := hsuits.slotCount_operands (Nat.le_add_left 2 _)
        -- two slots are declared whatever the kind, but only narrow kinds are compared
        have ha : a.hasKind kind = true := hsuits.operands (a, kind) (.tail _ (.head _))
        refine balances_append [b, a] [] stack (htaken.trans ?_) rfl
        show kind.size + kind.size = 2
        rw [size_of_comparisonHolds hholds ha]
  | invoke kind owner name signature =>
    show Accounts _ _ (if stack.length < Program.operandCount kind signature then _ else _)
    split
    · trivial
    · next hcount =>
      have hlength : (Instruction.invoke kind owner name signature).operandKinds.length =
          Program.operandCount kind signature := by
        simp only [Instruction.operandKinds, Program.operandCount]
        cases kind.hasReceiver <;> simp
      have htaken := hsuits.slotCount_operands (by rw [hlength]; exact Nat.le_of_not_lt hcount)
      rw [sum_operandKinds_invoke, hlength] at htaken
      show slotCount (stack.drop (Program.operandCount kind signature)) + _ = slotCount stack
      rw [← htaken, Nat.add_comm, ← slotCount_append, List.take_append_drop]
  | getStatic _ _ _ | putStatic _ _ _ | throw => trivial
  | «return» kind =>
    cases kind with
    | none => trivial
    | some k => cases stack <;> trivial

theorem accounts_step (hi : f.code[f.position]? = some i) (hsuits : f.Suits i s) :
    Accounts i f.stack (f.step s) := by
  unfold step
  cases f.remaining with
  | zero => trivial
  | succ remaining =>
    simp only [hi]
    exact accounts_execute (f := { f with remaining })
      ⟨hsuits.operands, hsuits.narrow, hsuits.loaded, hsuits.read⟩

/-- The slots that an instruction takes were there exactly if it did not cast nothing. -/
theorem Balances.pops_le_iff {before after : List Value} (h : Balances i before after) :
    i.stackEffect.pops ≤ slotCount before ↔ ¬ (i.isCast = true ∧ before = []) := by
  constructor
  · rintro hpops ⟨hcast, rfl⟩
    cases i with
    | checkCast className => cases hpops
    | _ => cases hcast
  · exact fun hcast => h.enough.resolve_right hcast

end Frame

namespace Program

variable {p : Program} {f g : Frame} {s t : State}

/-- A turn changes the stack and goes on as its instruction declares, in the same code. -/
theorem Turn.balances (h : p.Turn f s g t) (hsuits : ∀ i ∈ f.code[f.position]?, f.Suits i s) :
    ∃ i, f.code[f.position]? = some i ∧ Frame.Balances i f.stack g.stack ∧
      i.Continues f.position g.position ∧ g.code = f.code := by
  cases h with
  | next hnext =>
    obtain ⟨i, hi, hgoes⟩ := Frame.goes_of_step hnext
    have haccounts := Frame.accounts_step hi (hsuits i hi)
    rw [hnext] at haccounts
    exact ⟨i, hi, haccounts, hgoes.position, hgoes.code⟩
  | @returned c g _ _ v _ hcall _ hreturns =>
    obtain ⟨hi, -, _, rfl, -, -, -, hcode, hposition, -⟩ := Frame.of_step_call hcall
    have haccounts := Frame.accounts_step hi (hsuits _ hi)
    rw [hcall] at haccounts
    have hslots : slotCount g.stack + _ = slotCount f.stack := haccounts
    have hpushed : slotCount v.toList = c.signature.returnSlots := slotCount_of_returns hreturns
    refine ⟨_, hi, ⟨?_, .inl (Nat.le_of_add_left_le hslots.le)⟩, hposition, hcode⟩
    show slotCount (v.toList ++ g.stack) + _ = _ + c.signature.returnSlots
    rw [slotCount_append, ← hslots, hpushed]
    omega

/--
**Turns are as declared.** In a turn whose instruction finds values of the kinds that it names, the
slots on the stack change by those that the instruction takes and leaves, and control goes on to one
of its ways. The slots that it takes were there, unless it is a cast and the stack was empty.
-/
theorem turn_declared (h : p.Turn f s g t) (hsuits : ∀ i ∈ f.code[f.position]?, f.Suits i s) :
    ∃ i, f.code[f.position]? = some i ∧
      slotCount g.stack + i.stackEffect.pops = slotCount f.stack + i.stackEffect.pushes ∧
      (i.stackEffect.pops ≤ slotCount f.stack ↔ ¬ (i.isCast = true ∧ f.stack = [])) ∧
      i.Continues f.position g.position := by
  obtain ⟨i, hi, hbalances, hcontinues, -⟩ := h.balances hsuits
  exact ⟨i, hi, hbalances.slots, hbalances.pops_le_iff, hcontinues⟩

end Program

end Machine

open Machine

namespace Pawnshop

/-- Gives back what was lent. -/
def redeem : MethodDef where
  name := "redeem"
  signature := ⟨[.primitive .long, .primitive .int], some (.primitive .long)⟩
  code := some [.load .long 1, .return (some .long)]

/-- Casts without anything to cast. -/
def appraise : MethodDef where
  name := "appraise"
  signature := .void
  access := .static
  code := some [.checkCast "pawn.Item", .return none]

def shop : ClassDef where
  name := "pawn.Shop"
  methods := [redeem, appraise]

def program : Program := .ofClasses [shop]

/-- A shop on the heap. -/
def state : State := { heap := #[⟨"pawn.Shop", {}⟩] }

/-- An activation that calls the shop with three of the values on its stack. -/
def customer : Frame where
  code := #[.invoke .virtual "pawn.Shop" "redeem" redeem.signature]
  stack := [.int 3, .long 5, .object 0, .int 7]
  locals := {}
  remaining := 1

/-- The call takes four slots for its three operands and leaves two for its result. -/
theorem redeem_declared : ∃ g, program.Turn customer state g state ∧
    (∀ i ∈ customer.code[customer.position]?, customer.Suits i state) ∧
    slotCount customer.stack = 5 ∧ slotCount g.stack = 3 ∧
    ∃ i, customer.code[customer.position]? = some i ∧ i.stackEffect = ⟨4, 2⟩ ∧
      slotCount g.stack + i.stackEffect.pops =
        slotCount customer.stack + i.stackEffect.pushes ∧
      (i.stackEffect.pops ≤ slotCount customer.stack ↔
        ¬ (i.isCast = true ∧ customer.stack = [])) ∧
      i.Continues customer.position g.position := by
  have hcall : program.call 2 ⟨.virtual, "pawn.Shop", "redeem", redeem.signature,
      [.object 0, .long 5, .int 3]⟩ state = some ⟨.ok (some (.long 5)), state⟩ := rfl
  have hturn : program.Turn customer state _ state := .returned rfl hcall rfl
  have hcustomer : customer.Suits (.invoke .virtual "pawn.Shop" "redeem" redeem.signature) state :=
    ⟨by decide, by simp, by simp, by simp⟩
  have hsuits : ∀ i ∈ customer.code[customer.position]?, customer.Suits i state :=
    fun i hi => Option.some.inj hi ▸ hcustomer
  obtain ⟨i, hi, hdeclared⟩ := Program.turn_declared hturn hsuits
  refine ⟨_, hturn, hsuits, rfl, rfl, i, hi, ?_, hdeclared⟩
  exact Option.some.inj hi ▸ rfl

/-- The activation of a method that casts first. -/
def appraisal : Frame where
  code := #[.checkCast "pawn.Item", .return none]
  locals := {}
  remaining := Frame.stepLimit

/-- **A cast goes on with nothing on the stack**, though it declares to take a slot. -/
theorem cast_goes_on : Frame.start [.checkCast "pawn.Item", .return none] [] = .ok appraisal ∧
    program.call 2 ⟨.static, "pawn.Shop", "appraise", .void, []⟩ {} = some ⟨.ok none, {}⟩ ∧
    ∃ g, program.Turn appraisal {} g {} ∧
      ∃ i, appraisal.code[appraisal.position]? = some i ∧ appraisal.Suits i {} ∧
        ¬ i.stackEffect.pops ≤ slotCount appraisal.stack := by
  refine ⟨rfl, rfl, _, .next rfl, .checkCast "pawn.Item", rfl, ?_, by decide⟩
  exact ⟨by decide, by simp, by simp, by simp⟩

end Pawnshop

end StorageWeave
