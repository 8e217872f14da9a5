import StorageWeave.Proofs.Assembly
import StorageWeave.Proofs.Fields
import StorageWeave.Proofs.Hooks

/-!
# Running an extraction

The method that reports changed fields goes through the persistent fields of a class, after those
of its superclasses. `extract` is what it does to a state, field by field: a field that differs from
its shadow is reported and its shadow renewed, and a field whose values cannot be compared stops the
extraction. `Lineage.gives_extractUpdates` says that the generated methods of all levels do just
that, whatever the fields hold.
-/

namespace StorageWeave

open Bytecode Weaving

namespace Machine

/-! ## Fields and their shadows -/

namespace State

/-- The value of a field of the object at a place. -/
def current (s : State) (o : Nat) (f : FieldDef) : Value := s.read (.object o) f.name f.type

/-- The last persisted value of a field of the object at a place. -/
def persistedValue (s : State) (o : Nat) (f : FieldDef) : Value :=
  s.read (.object o) (Names.shadow f.name) f.type

/-- What a report of a field says. -/
def updateOf (s : State) (h : Hierarchy) (o : Nat) (r : ResolvedField) : Update :=
  ⟨s.read (.object o) Names.storageReference (.reference h.config.storageReferenceType),
    r.declaring, r.field.name, r.field.type.tag, s.current o r.field⟩

/-- The state after a field was reported. -/
def report (s : State) (h : Hierarchy) (o : Nat) (r : ResolvedField) : State :=
  { s with
    extracted :=
      if h.isLeaf r.field.type then s.extracted else s.extracted.push (s.current o r.field)
    updates := s.updates.push (s.updateOf h o r) }.write o (Names.shadow r.field.name)
      (s.current o r.field)

@[simp] theorem className?_report (s : State) (h : Hierarchy) (o id : Nat) (r : ResolvedField) :
    (s.report h o r).className? id = s.className? id := by
  rw [report, className?_write]
  rfl

@[simp] theorem size_report (s : State) (h : Hierarchy) (o : Nat) (r : ResolvedField) :
    (s.report h o r).heap.size = s.heap.size := by
  rw [report, size_write]

end State

/-- Whether two values of a field differ, or why it cannot be told. -/
def comparison : FieldType → Value → Value → Except Fault Bool
  | .primitive .long, a, b => do return (← (← compareValues a b).toInt) ≠ 0
  | .primitive .float, a, b => do
    return (← (← rawBits .float a).toInt) ≠ (← (← rawBits .float b).toInt)
  | .primitive .double, a, b => do
    return (← (← compareValues (← rawBits .double a) (← rawBits .double b)).toInt) ≠ 0
  | .primitive _, a, b => do return (← a.toInt) ≠ (← b.toInt)
  | .reference _, a, b => .ok (!a.equals b)

/-- What an extraction of fields of the object at a place does. -/
def extract (h : Hierarchy) (o : Nat) : List ResolvedField → State → Outcome (Option Value)
  | [], s => ⟨.ok none, s⟩
  | r :: rest, s =>
    match comparison r.field.type (s.current o r.field) (s.persistedValue o r.field) with
    | .error e => ⟨.error e, s⟩
    | .ok false => extract h o rest s
    | .ok true => extract h o rest (s.report h o r)

theorem extract_append (h : Hierarchy) (o : Nat) (rs₁ rs₂ : List ResolvedField) (s : State) :
    extract h o (rs₁ ++ rs₂) s =
      match extract h o rs₁ s with
      | ⟨.ok _, s'⟩ => extract h o rs₂ s'
      | out => out := by
  induction rs₁ generalizing s with
  | nil => rfl
  | cons r rs₁ ih =>
    rw [List.cons_append, extract, extract]
    split
    · rfl
    · exact ih s
    · exact ih _

/-- An extraction returns nothing. -/
theorem extract_result (h : Hierarchy) (o : Nat) (rs : List ResolvedField) (s : State) :
    (extract h o rs s).result = .ok none ∨ ∃ e, (extract h o rs s).result = .error e := by
  induction rs generalizing s with
  | nil => exact .inl rfl
  | cons r rs ih =>
    rw [extract]
    split
    · exact .inr ⟨_, rfl⟩
    · exact ih s
    · exact ih _

@[simp] theorem className?_extract (h : Hierarchy) (o : Nat) (rs : List ResolvedField) (s : State)
    (id : Nat) : (extract h o rs s).state.className? id = s.className? id := by
  induction rs generalizing s with
  | nil => rfl
  | cons r rs ih =>
    rw [extract]
    split
    · rfl
    · exact ih s
    · rw [ih, State.className?_report]

@[simp] theorem size_extract (h : Hierarchy) (o : Nat) (rs : List ResolvedField) (s : State) :
    (extract h o rs s).state.heap.size = s.heap.size := by
  induction rs generalizing s with
  | nil => rfl
  | cons r rs ih =>
    rw [extract]
    split
    · rfl
    · exact ih s
    · rw [ih, State.size_report]

/-- A field is reported if it is found to differ from its shadow. -/
def State.IsReported (s : State) (o : Nat) (r : ResolvedField) : Prop :=
  comparison r.field.type (s.current o r.field) (s.persistedValue o r.field) = .ok true

/-- An extraction that reports no field changes nothing. -/
theorem extract_state {h : Hierarchy} {o : Nat} {rs : List ResolvedField} {s : State}
    (hrs : ¬∃ r ∈ rs, s.IsReported o r) : (extract h o rs s).state = s := by
  induction rs with
  | nil => rfl
  | cons r rs ih =>
    rw [extract]
    split
    · rfl
    · exact ih fun ⟨r', hr', hreported⟩ => hrs ⟨r', List.mem_cons_of_mem r hr', hreported⟩
    · next hreported => exact absurd ⟨r, List.mem_cons_self, hreported⟩ hrs

theorem holds_eq_compare (x y : Int32) : holds .eq (compare x.toInt y.toInt) = decide (x = y) := by
  rw [holds]
  exact decide_eq_decide.2 (Std.LawfulEqCmp.compare_eq_iff_eq.trans Int32.toInt_inj)

namespace Program

variable {p : Program} {code : Code} {n : Nat} {locals : Locals} {s : State}
  {out : Outcome (Option Value)} {t : Target}

/-- An instruction that pushes what it computes, or fails. -/
theorem completes_push {i : Instruction} {stack rest : List Value} {r : Except Fault Value}
    (hc : code.length ≤ Frame.stepLimit) (hi : code[n]? = some i)
    (hx : (⟨n, stack, locals, s⟩ : Point).frame.execute i s =
      (⟨n, stack, locals, s⟩ : Point).frame.pushResult rest s r)
    (hfault : ∀ e, r = .error e → out = ⟨.error e, s⟩)
    (hnext : ∀ v, r = .ok v → p.Completes code ⟨n + 1, v :: rest, locals, s⟩ out) :
    p.Completes code ⟨n, stack, locals, s⟩ out := by
  rcases r with e | v
  · rw [hfault e rfl]
    exact completes_fault hc hi hx
  · exact (flows_next (b := ⟨n + 1, v :: rest, locals, s⟩) hc hi hx (Nat.lt_succ_self n)).completes
      (hnext v rfl)

/-- An instruction that jumps forward unless something has changed, or fails. -/
theorem completes_skip {i : Instruction} {stack : List Value} (changed : Except Fault Bool)
    (hc : code.length ≤ Frame.stepLimit) (hi : code[n]? = some i) (ht : n < t.toNat)
    (hx : (⟨n, stack, locals, s⟩ : Point).frame.execute i s =
      match changed with
      | .ok b => (⟨n, stack, locals, s⟩ : Point).frame.branch (!b) t [] s
      | .error e => .fault e s)
    (hfault : ∀ e, changed = .error e → out = ⟨.error e, s⟩)
    (hsame : changed = .ok false → p.Completes code ⟨t.toNat, [], locals, s⟩ out)
    (hchanged : changed = .ok true → p.Completes code ⟨n + 1, [], locals, s⟩ out) :
    p.Completes code ⟨n, stack, locals, s⟩ out := by
  rcases changed with e | _ | _
  · rw [hfault e rfl]
    exact completes_fault hc hi hx
  · exact (flows_next (b := ⟨t.toNat, [], locals, s⟩) hc hi hx ht).completes (hsame rfl)
  · exact (flows_next (b := ⟨n + 1, [], locals, s⟩) hc hi hx (Nat.lt_succ_self n)).completes
      (hchanged rfl)

theorem execute_branchIf (v : Value) :
    (⟨n, [v], locals, s⟩ : Point).frame.execute (.branchIf .eq t) s =
      match (do return decide ((← v.toInt) ≠ 0) : Except Fault Bool) with
      | .ok b => (⟨n, [v], locals, s⟩ : Point).frame.branch (!b) t [] s
      | .error e => .fault e s := by
  simp only [Point.frame, Frame.execute.eq_def]
  rcases v.toInt with e | x
  · rfl
  · refine congrArg (fun b => Frame.branch _ b t [] s) ((holds_eq_compare x 0).trans ?_)
    rw [decide_not, Bool.not_not]

theorem execute_branchIfCompare_int (a b : Value) :
    (⟨n, [b, a], locals, s⟩ : Point).frame.execute (.branchIfCompare .int .eq t) s =
      match (do return decide ((← a.toInt) ≠ (← b.toInt)) : Except Fault Bool) with
      | .ok e => (⟨n, [b, a], locals, s⟩ : Point).frame.branch (!e) t [] s
      | .error e => .fault e s := by
  simp only [Point.frame, Frame.execute.eq_def, comparisonHolds]
  rcases a.toInt with e | x
  · rfl
  · rcases b.toInt with e | y
    · rfl
    · refine congrArg (fun b => Frame.branch _ b t [] s) ((holds_eq_compare x y).trans ?_)
      rw [decide_not, Bool.not_not]

theorem execute_branchIfCompare_reference (a b : Value) :
    (⟨n, [b, a], locals, s⟩ : Point).frame.execute (.branchIfCompare .reference .eq t) s =
      (⟨n, [b, a], locals, s⟩ : Point).frame.branch (!!a.equals b) t [] s := by
  rw [Bool.not_not]
  rfl

/-- Code that jumps away when two values, pushed by `current` and `previous`, do not differ. -/
def compareCode (current previous : Code) (t : Target) : FieldType → Code
  | .primitive .long => current ++ previous ++ [.compare .long, .branchIf .eq t]
  | .primitive .float => current ++ .rawBits .float :: (previous ++
      [.rawBits .float, .branchIfCompare .int .eq t])
  | .primitive .double => current ++ .rawBits .double :: (previous ++
      [.rawBits .double, .compare .long, .branchIf .eq t])
  | .primitive _ => current ++ previous ++ [.branchIfCompare .int .eq t]
  | .reference _ => current ++ previous ++ [.branchIfCompare .reference .eq t]

theorem resolved_compareWithShadow (c : ClassDef) (f : FieldDef) (address : String → Nat) :
    (Augmentation.compareWithShadow c f).flatMap (Directive.resolved address) =
      compareCode (Augmentation.thisField c f.name f.type)
        (Augmentation.thisField c (Names.shadow f.name) f.type)
        (address (Augmentation.unchangedLabel f)).toUInt64 f.type := by
  obtain ⟨name, kind | className, access⟩ := f
  · cases kind <;> rfl
  · rfl

/-- Code that pushes the raw bits of two floating point values, one after the other. -/
theorem completes_rawBits {current previous rest : Code} {a b : Value} (kind : PrimitiveKind)
    (hc : code.length ≤ Frame.stepLimit)
    (hcurrent : ∀ n stack, Point.exec? current ⟨n, stack, locals, s⟩ =
      some ⟨n + current.length, a :: stack, locals, s⟩)
    (hprevious : ∀ n stack, Point.exec? previous ⟨n, stack, locals, s⟩ =
      some ⟨n + previous.length, b :: stack, locals, s⟩)
    (hp : Placed code n (current ++ .rawBits kind :: (previous ++ .rawBits kind :: rest)))
    (hfirst : ∀ e, rawBits kind a = .error e → out = ⟨.error e, s⟩)
    (hsecond : ∀ v e, rawBits kind a = .ok v → rawBits kind b = .error e → out = ⟨.error e, s⟩)
    (hrest : ∀ v w, rawBits kind a = .ok v → rawBits kind b = .ok w → p.Completes code
      ⟨n + current.length + 1 + previous.length + 1, [w, v], locals, s⟩ out) :
    p.Completes code ⟨n, [], locals, s⟩ out := by
  refine (flows_block hc hp.left (hcurrent n [])).completes ?_
  refine completes_push (r := rawBits kind a) hc hp.right.head rfl hfirst fun v hv => ?_
  refine (flows_block hc hp.right.tail.left (hprevious _ [v])).completes ?_
  exact completes_push (r := rawBits kind b) hc hp.right.tail.right.head rfl
    (fun e he => hsecond v e hv he) fun w hw => hrest v w hv hw

/-- The code of a comparison goes where `comparison` says. -/
theorem completes_compareCode {current previous : Code} {a b : Value} (type : FieldType)
    (hc : code.length ≤ Frame.stepLimit)
    (hcurrent : ∀ n stack, Point.exec? current ⟨n, stack, locals, s⟩ =
      some ⟨n + current.length, a :: stack, locals, s⟩)
    (hprevious : ∀ n stack, Point.exec? previous ⟨n, stack, locals, s⟩ =
      some ⟨n + previous.length, b :: stack, locals, s⟩)
    (hp : Placed code n (compareCode current previous t type))
    (ht : n + (compareCode current previous t type).length ≤ t.toNat)
    (hfault : ∀ e, comparison type a b = .error e → out = ⟨.error e, s⟩)
    (hsame : comparison type a b = .ok false → p.Completes code ⟨t.toNat, [], locals, s⟩ out)
    (hchanged : comparison type a b = .ok true →
      p.Completes code ⟨n + (compareCode current previous t type).length, [], locals, s⟩ out) :
    p.Completes code ⟨n, [], locals, s⟩ out := by
  have hboth : Point.exec? (current ++ previous) ⟨n, [], locals, s⟩ =
      some ⟨n + (current ++ previous).length, [b, a], locals, s⟩ := by
    rw [Point.exec?_append, hcurrent, Option.bind_some, hprevious, List.length_append,
      Nat.add_assoc]
  have hint (hcode : compareCode current previous t type =
        current ++ previous ++ [.branchIfCompare .int .eq t])
      (hcomparison : comparison type a b = do return decide ((← a.toInt) ≠ (← b.toInt))) :
      p.Completes code ⟨n, [], locals, s⟩ out := by
    rw [hcode] at hp ht hchanged
    rw [hcomparison] at hfault hsame hchanged
    rw [List.length_append, List.length_singleton, ← Nat.add_assoc] at ht hchanged
    refine (flows_block hc hp.left hboth).completes ?_
    exact completes_skip _ hc hp.right.head ht (execute_branchIfCompare_int a b) hfault hsame
      hchanged
  rcases type with kind | className
  · cases kind with
    | boolean | byte | char | short | int => exact hint rfl rfl
    | long =>
      simp only [compareCode] at hp ht hchanged
      rw [List.length_append, ← Nat.add_assoc] at ht hchanged
      refine (flows_block hc hp.left hboth).completes ?_
      refine completes_push (r := compareValues a b) hc hp.right.head rfl
        (fun e he => hfault e ?_) fun v hv => ?_
      · simp only [comparison, he]
        rfl
      simp only [comparison, hv] at hfault hsame hchanged
      exact completes_skip _ hc hp.right.tail.head ht (execute_branchIf v) hfault hsame hchanged
    | float =>
      simp only [compareCode] at hp ht hchanged
      refine completes_rawBits .float hc hcurrent hprevious hp (fun e he => hfault e ?_)
        (fun v e hv he => hfault e ?_) fun v w hv hw => ?_
      · simp only [comparison, he]
        rfl
      · simp only [comparison, hv, he]
        cases a <;> cases hv
        rfl
      have hcomparison : comparison (.primitive .float) a b =
          do return decide ((← v.toInt) ≠ (← w.toInt)) := by
        simp only [comparison, hv, hw]
        rfl
      rw [hcomparison] at hfault hsame hchanged
      refine completes_skip _ hc hp.right.tail.right.tail.head ?_ (execute_branchIfCompare_int v w)
        hfault hsame fun hx => ?_
      · simp only [List.length_append, List.length_cons, List.length_nil] at ht
        omega
      · simpa [Nat.add_assoc, Nat.add_comm 1] using hchanged hx
    | double =>
      simp only [compareCode] at hp ht hchanged
      refine completes_rawBits .double hc hcurrent hprevious hp (fun e he => hfault e ?_)
        (fun v e hv he => hfault e ?_) fun v w hv hw => ?_
      · simp only [comparison, he]
        rfl
      · simp only [comparison, hv, he]
        rfl
      refine completes_push (r := compareValues v w) hc hp.right.tail.right.tail.head rfl
        (fun e he => hfault e ?_) fun x hx => ?_
      · simp only [comparison, hv, hw, bind, Except.bind, he]
      have hcomparison : comparison (.primitive .double) a b =
          do return decide ((← x.toInt) ≠ 0) := by
        simp only [comparison, hv, hw, bind, Except.bind, hx]
      rw [hcomparison] at hfault hsame hchanged
      refine completes_skip _ hc hp.right.tail.right.tail.tail.head ?_ (execute_branchIf x)
        hfault hsame fun hy => ?_
      · simp only [List.length_append, List.length_cons, List.length_nil] at ht
        omega
      · simpa [Nat.add_assoc, Nat.add_comm 1] using hchanged hy
  · simp only [compareCode] at hp ht hchanged
    rw [List.length_append, List.length_singleton, ← Nat.add_assoc] at ht hchanged
    refine (flows_block hc hp.left hboth).completes ?_
    exact completes_skip (.ok (!a.equals b)) hc hp.right.head ht
      (execute_branchIfCompare_reference a b) hfault hsame hchanged

end Program

end Machine

open Machine

namespace WovenProgram

variable {h : Hierarchy} {classes : List ClassDef} {p : Program} {code : Code} {n o a : Nat}
  {locals : Locals} {s : State} {c : ClassDef} {f : FieldDef}

theorem flows_recurseInto (hp : WovenProgram h classes p) (hno : NoHookMethods classes)
    (hc : code.length ≤ Frame.stepLimit) (hplaced : Placed code n (Augmentation.recurseInto h c f))
    (hthis : locals[(0 : UInt16)]? = some (.object o))
    (haccumulator : locals[(1 : UInt16)]? = some (.object a)) (ha : IsAccumulator p s a) :
    p.Flows code ⟨n, [], locals, s⟩ ⟨n + (Augmentation.recurseInto h c f).length, [], locals,
      { s with extracted := s.extracted.push (s.current o f) }⟩ := by
  have hloads : Point.exec? ([.load .reference 1] ++ Augmentation.thisField c f.name f.type)
      ⟨n, [], locals, s⟩ = some ⟨n + 3, [s.current o f, .object a], locals, s⟩ := by
    rw [Point.exec?_append]
    simp only [Point.exec?, Point.frame, Frame.execute.eq_def, haccumulator, Frame.advance, if_true,
      Option.bind_some]
    exact Point.exec?_readThis c.name f.name f.type hthis
  refine (Program.flows_block hc hplaced.left hloads).trans ?_
  exact Program.flows_invoke [.object a, s.current o f] [] hc hplaced.right.head rfl
    (hp.gives_recursiveExtract hno ha (s.current o f))

theorem flows_recordField (hp : WovenProgram h classes p) (hno : NoHookMethods classes)
    (hc : code.length ≤ Frame.stepLimit) (hplaced : Placed code n (Augmentation.recordField h c f))
    (hthis : locals[(0 : UInt16)]? = some (.object o))
    (haccumulator : locals[(1 : UInt16)]? = some (.object a)) (ha : IsAccumulator p s a)
    (ho : o < s.heap.size) :
    p.Flows code ⟨n, [], locals, s⟩ ⟨n + (Augmentation.recordField h c f).length, [], locals,
      { s with updates := s.updates.push (s.updateOf h o ⟨c.name, f⟩) }.write o
        (Names.shadow f.name) (s.current o f)⟩ := by
  have hloads : Point.exec? ([.load .reference 1, .loadThis,
      .getField h.config.storageRoot Names.storageReference
        (.reference h.config.storageReferenceType),
      .string c.name, .string f.name, .string f.type.tag] ++
        Augmentation.thisField c f.name f.type) ⟨n, [], locals, s⟩ =
      some ⟨n + 8, [s.current o f, .str f.type.tag, .str f.name, .str c.name,
        (s.updateOf h o ⟨c.name, f⟩).reference, .object a], locals, s⟩ := by
    rw [Point.exec?_append]
    simp only [Point.exec?, Point.frame, Frame.execute.eq_def, haccumulator, Instruction.loadThis,
      Instruction.string, hthis, Frame.advance, if_true, Option.bind_some]
    exact Point.exec?_readThis c.name f.name f.type hthis
  have hstore (s : State) (ho : o < s.heap.size) (n : Nat) : Point.exec? ([.loadThis] ++
      (Augmentation.thisField c f.name f.type ++ [.putField c.name (Names.shadow f.name) f.type]))
      ⟨n, [], locals, s⟩ = some ⟨n + 4, [], locals,
        s.write o (Names.shadow f.name) (s.current o f)⟩ := by
    simp only [Augmentation.thisField, Instruction.loadThis, List.cons_append, List.nil_append,
      Point.exec?, Point.frame, Frame.execute.eq_def, hthis, Frame.advance, if_true,
      State.place?_object ho]
    rfl
  simp only [Augmentation.recordField, List.append_assoc] at hplaced
  rw [← List.append_assoc] at hplaced
  refine (Program.flows_block hc hplaced.left hloads).trans ?_
  refine (Program.flows_invoke [.object a, _, .str c.name, .str f.name,
    .str f.type.tag, s.current o f] [] hc hplaced.right.head rfl
    (hp.gives_recordUpdate hno ha _ _ _ _ _)).trans ?_
  exact Program.flows_block hc hplaced.right.tail
    (hstore { s with updates := s.updates.push (s.updateOf h o ⟨c.name, f⟩) } ho _)

/-- The instructions that report a field. -/
def reportCode (h : Hierarchy) (c : ClassDef) (f : FieldDef) : Code :=
  (if h.isLeaf f.type then [] else Augmentation.recurseInto h c f) ++ Augmentation.recordField h c f

theorem flows_reportCode (hp : WovenProgram h classes p) (hno : NoHookMethods classes)
    (hc : code.length ≤ Frame.stepLimit) (hplaced : Placed code n (reportCode h c f))
    (hthis : locals[(0 : UInt16)]? = some (.object o))
    (haccumulator : locals[(1 : UInt16)]? = some (.object a)) (ha : IsAccumulator p s a)
    (ho : o < s.heap.size) :
    p.Flows code ⟨n, [], locals, s⟩
      ⟨n + (reportCode h c f).length, [], locals, s.report h o ⟨c.name, f⟩⟩ := by
  unfold reportCode at hplaced ⊢
  by_cases hleaf : h.isLeaf f.type = true
  · rw [if_pos hleaf, List.nil_append] at hplaced ⊢
    rw [State.report, if_pos hleaf]
    exact hp.flows_recordField hno hc hplaced hthis haccumulator ha ho
  · rw [if_neg hleaf] at hplaced ⊢
    rw [State.report, if_neg hleaf, List.length_append, ← Nat.add_assoc]
    exact (hp.flows_recurseInto hno hc hplaced.left hthis haccumulator ha).trans
      (hp.flows_recordField (s := { s with extracted := s.extracted.push (s.current o f) })
        hno hc hplaced.right hthis haccumulator ha ho)

/-- The instructions that compare a field with its shadow and jump to a target. -/
def fieldComparison (c : ClassDef) (f : FieldDef) (t : Target) : Code :=
  Program.compareCode (Augmentation.thisField c f.name f.type)
    (Augmentation.thisField c (Names.shadow f.name) f.type) t f.type

theorem resolved_updateField (address : String → Nat) :
    (Augmentation.updateField h c f).flatMap (Directive.resolved address) =
      fieldComparison c f (address (Augmentation.unchangedLabel f)).toUInt64 ++
        reportCode h c f := by
  simp only [Augmentation.updateField, List.flatMap_append, Program.resolved_compareWithShadow,
    Augmentation.emitAll, Directive.flatMap_resolved_emit, List.flatMap_singleton,
    Directive.resolved, List.append_nil, fieldComparison, reportCode]

/-- The label of a field stands behind its instructions. -/
theorem address_unchangedLabel {ds pre post : List Directive} {address : String → Nat}
    (haddress : ∀ pre l post, ds = pre ++ .label l :: post →
      address l = (pre.flatMap (Directive.resolved address)).length)
    (hds : ds = pre ++ (Augmentation.updateField h c f ++ post)) :
    address (Augmentation.unchangedLabel f) =
      ((pre ++ Augmentation.updateField h c f).flatMap (Directive.resolved address)).length := by
  rw [haddress (pre ++ (Augmentation.compareWithShadow c f ++
    Augmentation.emitAll (reportCode h c f))) _ post
    (by rw [hds, Augmentation.updateField, reportCode]; simp only [List.append_assoc]; rfl)]
  simp [Augmentation.updateField, reportCode, Directive.resolved]

/-- The code for a list of fields, up to the return of the method, extracts them. -/
theorem completes_fields (hp : WovenProgram h classes p)
    (hc : code.length ≤ Frame.stepLimit) {ds : List Directive} {address : String → Nat}
    (hcode : code = ds.flatMap (Directive.resolved address))
    (haddress : ∀ pre l post, ds = pre ++ .label l :: post →
      address l = (pre.flatMap (Directive.resolved address)).length)
    (hthis : locals[(0 : UInt16)]? = some (.object o))
    (haccumulator : locals[(1 : UInt16)]? = some (.object a)) (pre : List Directive)
    {fs : List FieldDef}
    (hds : ds = pre ++ (fs.flatMap (Augmentation.updateField h c) ++ [.emit (.return none)]))
    (hreports : (∃ r ∈ fs.map (⟨c.name, ·⟩), s.IsReported o r) →
      NoHookMethods classes ∧ IsAccumulator p s a) (ho : o < s.heap.size) :
    p.Completes code ⟨(pre.flatMap (Directive.resolved address)).length, [], locals, s⟩
      (extract h o (fs.map (⟨c.name, ·⟩)) s) := by
  induction fs generalizing pre s with
  | nil =>
    refine Program.completes_done hc (i := .return none) ?_ rfl
    rw [hcode, hds]
    simp [Directive.resolved]
  | cons f fs ih =>
    rw [List.flatMap_cons, List.append_assoc] at hds
    have hlabel := address_unchangedLabel haddress hds
    have hplaced : Placed code (pre.flatMap (Directive.resolved address)).length
        ((Augmentation.updateField h c f).flatMap (Directive.resolved address)) := by
      rw [hcode, hds, List.flatMap_append, List.flatMap_append]
      exact Placed.of_append _ _ _
    have hnext {s : State} (hreports : (∃ r ∈ fs.map (⟨c.name, ·⟩), s.IsReported o r) →
          NoHookMethods classes ∧ IsAccumulator p s a) (ho : o < s.heap.size) :
        p.Completes code ⟨address (Augmentation.unchangedLabel f), [], locals, s⟩
          (extract h o (fs.map (⟨c.name, ·⟩)) s) := by
      rw [hlabel]
      exact ih _ (by rw [hds, List.append_assoc]) hreports ho
    have ht : (address (Augmentation.unchangedLabel f)).toUInt64.toNat =
        address (Augmentation.unchangedLabel f) := by
      have hle : address (Augmentation.unchangedLabel f) ≤ code.length := by
        rw [hlabel, hcode, hds, ← List.append_assoc,
          @List.flatMap_append _ _ (pre ++ Augmentation.updateField h c f), List.length_append]
        exact Nat.le_add_right _ _
      simp only [Nat.toUInt64, UInt64.toNat_ofNat']
      simp only [Frame.stepLimit] at hc
      omega
    rw [List.flatMap_append, List.length_append, resolved_updateField, List.length_append] at hlabel
    rw [resolved_updateField] at hplaced
    refine Program.completes_compareCode f.type hc
      (fun n stack => Point.exec?_readThis c.name f.name f.type hthis)
      (fun n stack => Point.exec?_readThis c.name (Names.shadow f.name) f.type hthis)
      hplaced.left ?_ ?_ ?_ ?_
    · rw [ht]
      exact Nat.le.intro ((Nat.add_assoc _ _ _).trans hlabel.symm)
    · intro e he
      simp only [List.map_cons, extract]
      rw [show comparison f.type (s.current o f) (s.persistedValue o f) = .error e from he]
    · intro hsame
      simp only [List.map_cons, extract]
      rw [show comparison f.type (s.current o f) (s.persistedValue o f) = .ok false from hsame, ht]
      refine hnext ?_ ho
      rintro ⟨r, hr, hreported⟩
      exact hreports ⟨r, List.mem_cons_of_mem _ hr, hreported⟩
    · intro hchanged
      simp only [List.map_cons, extract]
      rw [show comparison f.type (s.current o f) (s.persistedValue o f) = .ok true from hchanged]
      obtain ⟨hno, ha⟩ := hreports ⟨⟨c.name, f⟩, List.mem_cons_self, hchanged⟩
      refine (hp.flows_reportCode hno hc hplaced.right hthis haccumulator ha ho).completes ?_
      rw [(Nat.add_assoc _ _ _).trans hlabel.symm]
      exact hnext (fun _ => ⟨hno, by simpa [IsAccumulator] using ha⟩) (by simpa using ho)

end WovenProgram

/-! ## All levels -/

namespace PersistentLineage

variable {h : Hierarchy} {classes levels : List ClassDef} {c : ClassDef} {p : Program} {s : State}
  {o a : Nat}

/-- Hands the extraction to a superclass. -/
def superExtraction (h : Hierarchy) (s : String) : Code :=
  [.loadThis, .load .reference 1,
    .invoke .special s Names.extractUpdates (Augmentation.extractSignature h)]

theorem extractBody_eq {s : String} (fields : List FieldDef)
    (hroot : h.config.isPlatformRoot s = false) : Augmentation.extractBody h c s fields =
      Augmentation.emitAll (superExtraction h s) ++
        (fields.flatMap (Augmentation.updateField h c) ++ [.emit (.return none)]) := by
  rw [Augmentation.extractBody, hroot, List.append_assoc]
  rfl

/-- The level of the class itself. -/
theorem exists_extractCode (hp : WovenProgram h classes p)
    (hl : PersistentLineage h classes levels c) {s : String} (hs : c.superclass = some s) :
    ∃ code, p.resolve c.name Names.extractUpdates (Augmentation.extractSignature h) =
        .ok (.code code) ∧ code.length ≤ Frame.stepLimit ∧
      assemble (Augmentation.extractBody h c s (h.eagerFields c ++ h.lazyFields c)) = .ok code := by
  have hmem := hl.lineage.mem_levels
  obtain ⟨k, c', hk, hc', -, -, m, hm, hfound⟩ := hp.exists_members hl.lineage.mem_classes
    (hl.storage c hmem) (hl.concrete c hmem)
  obtain ⟨s', hs', hgenerated⟩ := bind_eq_ok.1 hm
  obtain rfl : s = s' := Option.some.inj (hs.symm.trans (Augmentation.superclass_eq_ok hs'))
  obtain ⟨hname, hsignature, code, hcode, hassemble⟩ := Augmentation.generated_eq_ok hgenerated
  obtain ⟨hlevels, hlazy⟩ := hl.lineage.eagerLevels_eq hp.index hk
  have hown : k.ownEager = h.eagerFields c := by
    rw [Classification.ownEager, hlevels]
    cases hl.lineage <;> simp
  rw [hown, hlazy] at hassemble
  refine ⟨code, Program.resolve_code hc' ?_,
    length_le_of_codeFits (codeFits_of_bodiesFit (hl.fits c hmem) hk).2 hm hcode, hassemble⟩
  rw [hname, hsignature] at hfound
  rw [Program.codeOf?, hfound, Option.bind_some, hcode]

/-- **The generated methods extract** the persistent fields of all levels. -/
theorem gives_extractUpdates (hp : WovenProgram h classes p)
    (hl : PersistentLineage h classes levels c)
    (hreports : (∃ r ∈ h.persistentFields levels, s.IsReported o r) →
      NoHookMethods classes ∧ IsAccumulator p s a) (ho : o < s.heap.size) {call : Call}
    (hcall : p.callee call s =
      p.resolve c.name Names.extractUpdates (Augmentation.extractSignature h))
    (hargs : call.args = [.object o, .object a]) :
    p.Gives call s (extract h o (h.persistentFields levels) s) := by
  obtain ⟨locals, hlay, hthis, haccumulator⟩ :=
    exists_layOut_two (show (Value.object o).size = 1 from rfl) (.object a)
  have hlineage := hl.lineage
  induction hlineage generalizing call with
  | @top c s' hc hs hroot =>
    obtain ⟨code, hresolve, hfit, hassemble⟩ := hl.exists_extractCode hp hs
    obtain ⟨address, hcode, haddress⟩ := assemble_spec hassemble
    refine Program.gives_code (hcall.trans hresolve) (by rw [hargs]; exact hlay) ?_
    have := hp.completes_fields hfit hcode haddress hthis haccumulator []
      (by rw [Augmentation.extractBody, hroot]; rfl)
      (by simpa [Hierarchy.persistentFields] using hreports) ho
    simpa [Hierarchy.persistentFields] using this
  | @child levels d c hd hc hs hroot ih =>
    obtain ⟨code, hresolve, hfit, hassemble⟩ := hl.exists_extractCode hp hs
    obtain ⟨address, hcode, haddress⟩ := assemble_spec hassemble
    have hfields : h.persistentFields (levels ++ [c]) = h.persistentFields levels ++
        (h.eagerFields c ++ h.lazyFields c).map (⟨c.name, ·⟩) := by
      simp only [Hierarchy.persistentFields, List.flatMap_append, List.flatMap_singleton]
    rw [hfields] at hreports
    have habove : (∃ r ∈ h.persistentFields levels, s.IsReported o r) →
        NoHookMethods classes ∧ IsAccumulator p s a := by
      rintro ⟨r, hr, hreported⟩
      exact hreports ⟨r, List.mem_append_left _ hr, hreported⟩
    have hsuper : p.Gives ⟨.special, d.name, Names.extractUpdates,
        Augmentation.extractSignature h, [.object o, .object a]⟩ s _ :=
      ih (hl.parent hd) habove rfl rfl
    have hds := extractBody_eq (c := c) (h.eagerFields c ++ h.lazyFields c) hroot
    have hplaced : Placed code 0 (superExtraction h d.name) := by
      rw [hcode, hds, List.flatMap_append, Augmentation.emitAll, Directive.flatMap_resolved_emit]
      exact ⟨_, rfl⟩
    have hloads : Point.exec? [.loadThis, .load .reference 1] ⟨0, [], locals, s⟩ =
        some ⟨2, [.object a, .object o], locals, s⟩ := by
      simp only [Instruction.loadThis, Point.exec?, Point.frame, Frame.execute.eq_def, hthis,
        haccumulator, Frame.advance, if_true]
    refine Program.gives_code (hcall.trans hresolve) (by rw [hargs]; exact hlay) ?_
    have hfirst : Placed code 0 [.loadThis, .load .reference 1] :=
      (show Placed code 0 ([.loadThis, .load .reference 1] ++ _) from hplaced).left
    refine (Program.flows_block hfit hfirst hloads).completes ?_
    rw [hfields, extract_append]
    have hstate := className?_extract h o (h.persistentFields levels) s
    have hsize := size_extract h o (h.persistentFields levels) s
    have hresult := extract_result h o (h.persistentFields levels) s
    rcases hout : extract h o (h.persistentFields levels) s with ⟨e | v, s'⟩
    · rw [hout] at hsuper
      exact Program.completes_invoke [.object o, .object a] [] hfit
        hplaced.tail.tail.head rfl hsuper
    · rw [hout] at hsuper hstate hsize hresult
      obtain rfl : v = none := by simpa using hresult
      refine (Program.flows_invoke [.object o, .object a] [] hfit
        hplaced.tail.tail.head rfl hsuper).completes ?_
      have hown : (∃ r ∈ (h.eagerFields c ++ h.lazyFields c).map (⟨c.name, ·⟩),
          s'.IsReported o r) → NoHookMethods classes ∧ IsAccumulator p s' a := by
        rintro ⟨r, hr, hreported⟩
        rw [IsAccumulator, funext hstate]
        -- A field of this level reported in a state that the levels above left alone.
        by_cases hany : ∃ r ∈ h.persistentFields levels, s.IsReported o r
        · exact habove hany
        · obtain rfl : s' = s := (congrArg Outcome.state hout).symm.trans (extract_state hany)
          exact hreports ⟨r, List.mem_append_right _ hr, hreported⟩
      have := hp.completes_fields (s := s') hfit hcode haddress hthis haccumulator _ hds hown
        (by rw [hsize]; exact ho)
      rwa [Augmentation.emitAll, Directive.flatMap_resolved_emit] at this

end PersistentLineage

end StorageWeave
