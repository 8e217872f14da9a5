import StorageWeave.Bytecode.Document.Reader
import StorageWeave.Bytecode.Document.Writer
import StorageWeave.Proofs.Modifiers
import StorageWeave.Proofs.Records
import StorageWeave.Proofs.ShortNumerals

/-!
# Class documents are read back

What a stored class is read as (`ClassDef.ofBytes?_toBytes`): the class itself with every constant
replaced by what its numeral is read as. All the rest of a document, from modifiers with unnamed
bits to branch targets of sixty-four bits, comes back as it was.
-/

namespace StorageWeave.Bytecode

open Json (Place required defaulted nullable)

/-! ## Types and signatures -/

@[simp] theorem PrimitiveKind.ofJson?_toJson (p : Place) (k : PrimitiveKind) :
    PrimitiveKind.ofJson? p k.toJson = some k := by
  cases k <;> rfl

@[simp] theorem ValueKind.ofJson?_toJson (p : Place) (k : ValueKind) :
    ValueKind.ofJson? p k.toJson = some k := by
  cases k <;> rfl

@[simp] theorem InvokeKind.ofJson?_toJson (p : Place) (k : InvokeKind) :
    InvokeKind.ofJson? p k.toJson = some k := by
  cases k <;> rfl

@[simp] theorem Condition.ofJson?_toJson (p : Place) (c : Condition) :
    Condition.ofJson? p c.toJson = some c := by
  cases c <;> rfl

@[simp] theorem ArithOp.ofJson?_toJson (p : Place) (op : ArithOp) :
    ArithOp.ofJson? p op.toJson = some op := by
  cases op <;> rfl

@[simp] theorem FieldType.ofJson?_toJson (p : Place) (t : FieldType) :
    FieldType.ofJson? p t.toJson = some t := by
  cases t with
  | primitive kind =>
    have hchoice : Json.choice? (FieldType.primitive kind).toJson
        = some ("primitive", some kind.toJson) := rfl
    simp [FieldType.ofJson?, hchoice]
  | reference className => rfl

theorem FieldType.toJson_ne_null (t : FieldType) : t.toJson ≠ .null := by
  cases t <;> nofun

theorem ValueKind.toJson_ne_null (k : ValueKind) : k.toJson ≠ .null := nofun

@[simp] theorem Signature.ofJson?_toJson (p : Place) (s : Signature) :
    Signature.ofJson? p s.toJson = some s := by
  have hfields : s.toJson.fields? ["params", "ret"]
      = some [some (.array (s.params.map FieldType.toJson)),
        some (.ofOption FieldType.toJson s.ret)] := Json.fields?_keys (by simp)
  have hparams := Json.list?_map_some (FieldType.ofJson?_toJson p) s.params
  have hret := Json.nullable_ofOption (FieldType.ofJson?_toJson p) FieldType.toJson_ne_null s.ret
  simp [Signature.ofJson?, hfields, required, defaulted, hparams, hret]

theorem FieldType.isPlain_toJson (t : FieldType) : t.toJson.IsPlain 1 := by
  cases t <;> exact Json.isPlain_record (List.forall_mem_singleton.2 (Json.isPlain_text _))

theorem Signature.isPlain_toJson (s : Signature) : s.toJson.IsPlain 3 := by
  have hparams : (Json.array (s.params.map FieldType.toJson)).IsPlain 2 :=
    Json.isPlain_array (List.forall_mem_map.2 fun t _ => t.isPlain_toJson)
  have hret : (Json.ofOption FieldType.toJson s.ret).IsPlain 2 := by
    cases s.ret with
    | none => exact Json.isPlain_null.mono (by decide)
    | some t => exact t.isPlain_toJson.mono (by decide)
  exact Json.isPlain_record (by simp [hparams, hret])

/-! ## Constants -/

/-- What the written form of a constant is read as. -/
def Constant.reread? : Constant → Option Constant
  | .float x => (Json.ofBinary32 x).binary32?.map .float
  | .double x => (Json.ofBinary64 x).binary64?.map .double
  | k => some k

theorem Constant.ofJson?_toJson (p : Place) (k : Constant) :
    Constant.ofJson? p k.toJson = k.reread? := by
  cases k with
  | null => rfl
  | int v =>
    have hchoice : Json.choice? (Constant.int v).toJson
        = some ("int", some (.ofInt v.toInt)) := rfl
    simp [Constant.ofJson?, hchoice, Constant.reread?]
  | long v =>
    have hchoice : Json.choice? (Constant.long v).toJson
        = some ("long", some (.ofInt v.toInt)) := rfl
    simp [Constant.ofJson?, hchoice, Constant.reread?]
  | float x => rfl
  | double x => rfl
  | string s => rfl

/-- A number is written as null or as a numeral of the grammar's shape. -/
theorem ofDatum_isWritable {f : Numeric.Format}
    (hf : 2 ^ (f.fractionBits + 1) < 10 ^ (f.enoughDigits - 1)) (range : Json.PositionalRange)
    {d : Numeric.Datum} (h : ∀ s m q, d = .finite s m q → f.Holds m q) :
    (Json.ofDatum f range d).IsWritable ∧ (Json.ofDatum f range d).depth = 0 := by
  cases d with
  | nan => exact ⟨trivial, rfl⟩
  | infinite s => exact ⟨trivial, rfl⟩
  | finite s m q =>
    obtain ⟨n, v, hn, hwrites, -⟩ := Json.ofDatum_finite hf range s (h s m q rfl)
    rw [hn]
    exact ⟨hwrites.writable, rfl⟩

/--
The form of a constant is flat and can be written; it is sound, unless it is a number that is not
read back.
-/
theorem Constant.toJson_spec (k : Constant) :
    k.toJson.IsWritable ∧ k.toJson.depth ≤ 1 ∧ (k.toJson.isSound = true ∨ k.reread? = none) := by
  have plain {d : ℕ} {j : Json} (h : j.IsPlain d) (hd : d ≤ 1) :
      j.IsWritable ∧ j.depth ≤ 1 ∧ (j.isSound = true ∨ k.reread? = none) :=
    ⟨h.writable, h.depth_le.trans hd, .inl h.sound⟩
  have member {j : Json} (key : String) (h : j.IsPlain 0) : (Json.record [(key, j)]).IsPlain 1 :=
    Json.isPlain_record (by simpa using h)
  have number {j : Json} (key : String) (h : j.IsWritable ∧ j.depth = 0)
      (hsound : j.isSound ≠ true → k.reread? = none) :
      (Json.record [(key, j)]).IsWritable ∧ (Json.record [(key, j)]).depth ≤ 1 ∧
        ((Json.record [(key, j)]).isSound = true ∨ k.reread? = none) := by
    refine ⟨Json.isWritable_record.2 (by simpa using h.1),
      Json.depth_record_le (by simpa using h.2), ?_⟩
    by_cases hj : j.isSound = true
    · exact .inl (Json.isSound_record.2 (by simpa using hj))
    · exact .inr (hsound hj)
  cases k with
  | null => exact plain (Json.isPlain_text "null") (by decide)
  | int v =>
    have := v.le_toInt
    have := v.toInt_lt
    exact plain (member "int" (Json.isPlain_ofInt (by omega) (by omega))) le_rfl
  | long v =>
    have := v.le_toInt
    have := v.toInt_lt
    exact plain (member "long" (Json.isPlain_ofInt (by omega) (by omega))) le_rfl
  | float x =>
    refine number "float" (ofDatum_isWritable (by decide) _ fun s m q h => ?_) fun h => ?_
    · exact (Json.binary32_finite h).1
    · rw [Constant.reread?, Json.binary32?_eq_none h]
      rfl
  | double x =>
    refine number "double" (ofDatum_isWritable (by decide) _ fun s m q h => ?_) fun h => ?_
    · exact (Json.binary64_finite h).1
    · rw [Constant.reread?, Json.binary64?_eq_none h]
      rfl
  | string s => exact plain (member "string" (Json.isPlain_text s)) le_rfl

/-! ## Instructions -/

namespace Instruction

/-- What the written form of an instruction is read as. -/
def reread? : Instruction → Option Instruction
  | .const k => k.reread?.map .const
  | i => some i

/-- The operands of an instruction have the keys of its opcode, each once. -/
theorem operandKeys?_document (i : Instruction) :
    operandKeys? i.document.1 = some (i.document.2.map Prod.fst) ∧
      (i.document.2.map Prod.fst).Nodup ∧ "opcode" ∉ i.document.2.map Prod.fst := by
  cases i <;> exact ⟨rfl, by simp [document, fieldOperands], by simp [document, fieldOperands]⟩

theorem ofOperands?_document (i : Instruction) :
    ofOperands? i.document.1 (i.document.2.map fun m => some m.2) = i.reread? := by
  have htargets (ts : List Target) : Json.list? Json.uint64? (.array (ts.map targetJson))
      = some ts := Json.list?_map_some Json.uint64?_ofNat ts
  have hslot (slot : UInt16) : Json.uint16? (slotJson slot) = some slot := Json.uint16?_ofNat slot
  have htarget (t : Target) : Json.uint64? (targetJson t) = some t := Json.uint64?_ofNat t
  have hkind := Json.nullable_ofOption (ValueKind.ofJson?_toJson .operand) ValueKind.toJson_ne_null
  have htext (s : String) : Json.text? (.text s) = some s := rfl
  have hbool (b : Bool) : Json.bool? (.bool b) = some b := rfl
  cases i <;>
    simp only [document, fieldOperands, List.map_cons, List.map_nil, ofOperands?, ofFieldOperands?,
      required, defaulted, htargets, hslot, htarget, hkind, htext, hbool, reread?,
      PrimitiveKind.ofJson?_toJson, ValueKind.ofJson?_toJson, InvokeKind.ofJson?_toJson,
      Condition.ofJson?_toJson, ArithOp.ofJson?_toJson, FieldType.ofJson?_toJson,
      Signature.ofJson?_toJson, Json.int32?_ofInt, Constant.ofJson?_toJson, Option.bind_eq_bind,
      Option.bind_some, Option.pure_def]
  case const k => cases k.reread? <;> rfl

/-- The opcode of an instruction stands among its operands. -/
theorem split?_record {opcode : String} {operands : List (String × Json)}
    (hnodup : (operands.map Prod.fst).Nodup) (h : "opcode" ∉ operands.map Prod.fst) :
    split? (.record (("opcode", .text opcode) :: operands)) = some (opcode, .record operands) := by
  have hkeys : ((("opcode", Json.text opcode) :: operands).map Prod.fst).Nodup :=
    List.nodup_cons.2 ⟨h, hnodup⟩
  have hmember := Json.member?_record hkeys "opcode"
  rw [List.lookup_cons_self, List.map_cons] at hmember
  have hfilter : (operands.map fun m => ((some m.1 : Json.Text), m.2)).filter
      (fun m => m.1 ≠ some "opcode") = operands.map fun m => (some m.1, m.2) := by
    rw [List.filter_eq_self]
    refine List.forall_mem_map.2 fun m hm => ?_
    have : m.1 ≠ "opcode" := fun heq => h (heq ▸ List.mem_map_of_mem hm)
    simpa using this
  have htext : required Json.text? (some (.text opcode)) = some opcode := rfl
  rw [Json.record, List.map_cons, split?, hmember]
  simp [htext, Json.record] at hfilter ⊢
  exact hfilter

theorem isPlain_operands {i : Instruction} (h : ∀ k, i ≠ .const k) :
    ∀ m ∈ i.document.2, m.2.IsPlain 3 := by
  have flat {j : Json} (hj : j.IsPlain 0) : j.IsPlain 3 := hj.mono (by decide)
  have text (s : String) : (Json.text s).IsPlain 3 := flat (Json.isPlain_text s)
  have primitive (k : PrimitiveKind) : k.toJson.IsPlain 3 := text _
  have kind (k : ValueKind) : k.toJson.IsPlain 3 := text _
  have dispatch (k : InvokeKind) : k.toJson.IsPlain 3 := text _
  have condition (c : Condition) : c.toJson.IsPlain 3 := text _
  have operator (op : ArithOp) : op.toJson.IsPlain 3 := text _
  have type (t : FieldType) : t.toJson.IsPlain 3 := t.isPlain_toJson.mono (by decide)
  have signature (s : Signature) : s.toJson.IsPlain 3 := s.isPlain_toJson
  have slot (w : UInt16) : (slotJson w).IsPlain 3 := by
    have := w.toNat_lt
    exact flat (Json.isPlain_ofNat (by unfold Json.maxWord; omega))
  have target (t : Target) : (targetJson t).IsPlain 0 := by
    have := t.toNat_lt
    exact Json.isPlain_ofNat (by unfold Json.maxWord; omega)
  have targets (ts : List Target) : (Json.array (ts.map targetJson)).IsPlain 3 :=
    (Json.isPlain_array (List.forall_mem_map.2 fun t _ => target t)).mono (by decide)
  have delta (z : Int32) : (Json.ofInt z.toInt).IsPlain 3 := by
    have := z.le_toInt
    have := z.toInt_lt
    exact flat (Json.isPlain_ofInt (by omega) (by omega))
  have truth (b : Bool) : (Json.bool b).IsPlain 3 := flat (Json.isPlain_bool b)
  have result (k : Option ValueKind) : (Json.ofOption ValueKind.toJson k).IsPlain 3 := by
    cases k with
    | none => exact flat Json.isPlain_null
    | some k => exact kind k
  cases i with
  | const k => exact absurd rfl (h k)
  | _ =>
    simp [document, fieldOperands, text, primitive, kind, dispatch, condition, operator, type,
      signature, slot, flat (target _), targets, delta, truth, result]

/--
The form of an instruction can be written and nests four deep at most; it is sound, unless its
constant is not read back.
-/
theorem toJson_spec (i : Instruction) :
    i.toJson.IsWritable ∧ i.toJson.depth ≤ 4 ∧ (i.toJson.isSound = true ∨ i.reread? = none) := by
  have hform : i.toJson = .record (("opcode", .text i.document.1) :: i.document.2) := rfl
  by_cases hconst : ∃ k, i = .const k
  · obtain ⟨k, rfl⟩ := hconst
    obtain ⟨hwritable, hdepth, hsound⟩ := k.toJson_spec
    have hopcode := Json.isPlain_text "const"
    rw [hform]
    refine ⟨Json.isWritable_record.2 (by simp [document, hopcode.writable, hwritable]),
      (Json.depth_record_le (d := 1) ?_).trans (by decide), ?_⟩
    · simp [document, hopcode.depth_le.trans (Nat.zero_le 1), hdepth]
    · refine hsound.imp (fun h => Json.isSound_record.2 ?_) fun h => ?_
      · simp [document, hopcode.sound, h]
      · rw [reread?, h]
        rfl
  · have hplain : i.toJson.IsPlain 4 := by
      rw [hform]
      refine Json.isPlain_record (List.forall_mem_cons.2 ⟨?_, isPlain_operands ?_⟩)
      · exact (Json.isPlain_text _).mono (by decide)
      · exact fun k hk => hconst ⟨k, hk⟩
    exact ⟨hplain.writable, hplain.depth_le, .inl hplain.sound⟩

/-- Inside a document, an instruction is read as its constant allows. -/
theorem ofJson?_toJson {outer : ℕ} (houter : outer ≤ 100) (i : Instruction) :
    ofJson? outer i.toJson = i.reread? := by
  obtain ⟨hkeys, hnodup, hopcode⟩ := i.operandKeys?_document
  obtain ⟨-, hdepth, hsound⟩ := i.toJson_spec
  have hsplit : split? i.toJson = some (i.document.1, .record i.document.2) :=
    split?_record hnodup hopcode
  by_cases hread : i.toJson.isSound = true
  · have hguard : i.toJson.isSound = true ∧ outer + i.toJson.depth ≤ maxDepth := by
      refine ⟨hread, ?_⟩
      unfold maxDepth
      omega
    have hcomplete : isComplete (i.document.2.map Prod.fst) (.record i.document.2) = true := rfl
    simp only [ofJson?, if_pos hguard, hsplit, hkeys, Option.bind_eq_bind, Option.bind_some,
      hcomplete, if_true, Json.fields?_keys hnodup, ofOperands?_document]
  · rw [hsound.resolve_left hread, ofJson?, if_neg fun h => hread h.1]

end Instruction

/-! ## Members -/

theorem Access.ofJson?_toJson (a : Access) : Access.ofJson? a.toJson = some a := a.read?_render

theorem Annotation.ofJson?_toJson (a : Annotation) : Annotation.ofJson? a.toJson = some a := by
  obtain ⟨name, argument⟩ := a
  cases argument with
  | none => rfl
  | some s => rfl

theorem FieldDef.ofJson?_toJson (f : FieldDef) : FieldDef.ofJson? f.toJson = some f := by
  have hfields : f.toJson.fields? ["name", "ty", "access"]
      = some [some (.text f.name), some f.type.toJson, some f.access.toJson] :=
    Json.fields?_keys (by simp)
  simp [FieldDef.ofJson?, hfields, required, defaulted, Json.text?_text, Access.ofJson?_toJson]

/-- What the written form of a method is read as. -/
def MethodDef.reread? (m : MethodDef) : Option MethodDef :=
  match m.code with
  | none => some m
  | some code => (code.mapM Instruction.reread?).map fun code => { m with code := some code }

theorem MethodDef.fields?_toJson (m : MethodDef) :
    m.toJson.fields? ["name", "signature", "access", "annotations", "code"]
      = some [some (.text m.name), some m.signature.toJson, some m.access.toJson,
        Json.listField Annotation.toJson m.annotations, m.code.map Code.toJson] := by
  obtain ⟨name, signature, access, annotations, code⟩ := m
  cases annotations <;> cases code <;>
    · rw [MethodDef.toJson, Json.fields?_record (by simp [memberUnlessEmpty, memberIf])]
      simp [memberUnlessEmpty, memberIf, Json.listField, List.lookup_cons]

theorem Code.ofJson?_toJson {outer : ℕ} (houter : outer < 100) (code : Code) :
    Code.ofJson? outer (Code.toJson code) = code.mapM Instruction.reread? :=
  Json.list?_map (fun i => i.ofJson?_toJson houter) code

theorem MethodDef.ofJson?_toJson {outer : ℕ} (houter : outer < 99) (m : MethodDef) :
    MethodDef.ofJson? outer m.toJson = m.reread? := by
  have haccess : defaulted Access.ofJson? .none (some m.access.toJson) = some m.access :=
    m.access.ofJson?_toJson
  have hannotations := Json.defaulted_listField Annotation.ofJson?_toJson m.annotations
  simp only [MethodDef.ofJson?, MethodDef.fields?_toJson, MethodDef.reread?, Option.bind_eq_bind,
    Option.bind_some, required, Json.text?_text, Signature.ofJson?_toJson, haccess, hannotations,
    Option.pure_def]
  obtain ⟨name, signature, access, annotations, code⟩ := m
  cases code with
  | none => rfl
  | some code =>
    have hread : defaulted (nullable (Code.ofJson? (outer + 1))) none (some (Code.toJson code))
        = (code.mapM Instruction.reread?).map some :=
      congrArg (Option.map some) (Code.ofJson?_toJson (by omega) code)
    simp only [Option.map_some, hread]
    cases code.mapM Instruction.reread? <;> rfl

/-! ## Classes -/

/-- What the stored form of a class is read as. -/
def ClassDef.reread? (c : ClassDef) : Option ClassDef :=
  (c.methods.mapM MethodDef.reread?).map fun methods => { c with methods }

theorem ClassDef.fields?_toJson (c : ClassDef) :
    c.toJson.fields? ["name", "superclass", "interfaces", "access", "fields", "methods"]
      = some [some (.text c.name), some (.ofOption .text c.superclass),
        Json.listField .text c.interfaces, some c.access.toJson,
        some (.array (c.fields.map FieldDef.toJson)),
        some (.array (c.methods.map MethodDef.toJson))] := by
  obtain ⟨name, superclass, interfaces, access, fields, methods⟩ := c
  cases interfaces <;>
    · rw [ClassDef.toJson, Json.fields?_record (by simp [memberUnlessEmpty])]
      simp [memberUnlessEmpty, Json.listField, List.lookup_cons]

theorem ClassDef.ofJson?_toJson (c : ClassDef) : ClassDef.ofJson? c.toJson = c.reread? := by
  have hsuperclass : defaulted (nullable Json.text?) none (some (.ofOption .text c.superclass))
      = some c.superclass := Json.nullable_text c.superclass
  have hinterfaces := Json.defaulted_listField Json.text?_text c.interfaces
  have haccess : defaulted Access.ofJson? .none (some c.access.toJson) = some c.access :=
    c.access.ofJson?_toJson
  have hfields : defaulted (Json.list? FieldDef.ofJson?) []
      (some (.array (c.fields.map FieldDef.toJson))) = some c.fields :=
    Json.list?_map_some FieldDef.ofJson?_toJson c.fields
  have hmethods : defaulted (Json.list? (MethodDef.ofJson? 2)) []
      (some (.array (c.methods.map MethodDef.toJson))) = c.methods.mapM MethodDef.reread? :=
    Json.list?_map (fun m => m.ofJson?_toJson (by decide)) c.methods
  simp only [ClassDef.ofJson?, ClassDef.fields?_toJson, ClassDef.reread?, Option.bind_eq_bind,
    Option.bind_some, required, Json.text?_text, hsuperclass, hinterfaces, haccess, hfields,
    hmethods, Option.pure_def]
  cases c.methods.mapM MethodDef.reread? <;> rfl

theorem Annotation.isWritable_toJson (a : Annotation) : a.toJson.IsWritable := by
  obtain ⟨name, argument⟩ := a
  cases argument <;>
    exact Json.isWritable_record.2 (by simp [memberIf, Json.isWritable_text])

theorem FieldDef.isWritable_toJson (f : FieldDef) : f.toJson.IsWritable :=
  Json.isWritable_record.2
    (by simp [Access.toJson, Json.isWritable_text, f.type.isPlain_toJson.writable])

theorem MethodDef.isWritable_toJson (m : MethodDef) : m.toJson.IsWritable := by
  have hannotations : (Json.array (m.annotations.map Annotation.toJson)).IsWritable :=
    Json.isWritable_array.2 (List.forall_mem_map.2 fun a _ => a.isWritable_toJson)
  have hcode (code : Code) : (Code.toJson code).IsWritable :=
    Json.isWritable_array.2 (List.forall_mem_map.2 fun i _ => i.toJson_spec.1)
  obtain ⟨name, signature, access, annotations, code⟩ := m
  refine Json.isWritable_record.2 ?_
  cases annotations <;> cases code <;>
    simp_all [memberUnlessEmpty, memberIf, Access.toJson, Json.isWritable_text,
      signature.isPlain_toJson.writable]

theorem ClassDef.isWritable_toJson (c : ClassDef) : c.toJson.IsWritable := by
  have hsuperclass : (Json.ofOption .text c.superclass).IsWritable := by
    cases c.superclass with
    | none => trivial
    | some s => exact Json.isWritable_text s
  have hinterfaces : (Json.array (c.interfaces.map .text)).IsWritable :=
    Json.isWritable_array.2 (List.forall_mem_map.2 fun s _ => Json.isWritable_text s)
  have hfields : (Json.array (c.fields.map FieldDef.toJson)).IsWritable :=
    Json.isWritable_array.2 (List.forall_mem_map.2 fun f _ => f.isWritable_toJson)
  have hmethods : (Json.array (c.methods.map MethodDef.toJson)).IsWritable :=
    Json.isWritable_array.2 (List.forall_mem_map.2 fun m _ => m.isWritable_toJson)
  obtain ⟨name, superclass, interfaces, access, fields, methods⟩ := c
  refine Json.isWritable_record.2 ?_
  cases interfaces <;>
    simp_all [memberUnlessEmpty, Access.toJson, Json.isWritable_text]

/-- The stored form of a class is read as the class with its constants read again. -/
theorem ClassDef.ofBytes?_toBytes (c : ClassDef) : ClassDef.ofBytes? c.toBytes = c.reread? := by
  rw [ClassDef.ofBytes?, ClassDef.toBytes, Json.parse?_render c.isWritable_toJson,
    Option.bind_some, ClassDef.ofJson?_toJson]

end StorageWeave.Bytecode
