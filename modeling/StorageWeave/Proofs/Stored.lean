import StorageWeave.Proofs.Documents
import StorageWeave.Proofs.Narrowing

/-!
# Stored classes

Which classes come back from their stored form as they were. Everything but constants does, so the
answer is about numerals: a class is read back exactly if each of its constants is, and a number is
read back if its numeral is short. Writing loses nothing even where reading does: classes with
finite constants are never stored alike.
-/

namespace StorageWeave.Bytecode

/-! ## Constants that come back -/

/-- The number that is written for a constant is read as the same number. -/
def Constant.ReadsBack : Constant → Prop
  | .float x => (Json.ofBinary32 x).binary32? = some x
  | .double x => (Json.ofBinary64 x).binary64? = some x
  | _ => True

instance : DecidablePred Constant.ReadsBack
  | .float x => inferInstanceAs (Decidable ((Json.ofBinary32 x).binary32? = some x))
  | .double x => inferInstanceAs (Decidable ((Json.ofBinary64 x).binary64? = some x))
  | .int _ | .long _ | .string _ | .null => inferInstanceAs (Decidable True)

theorem Constant.reread?_eq_self_iff (k : Constant) : k.reread? = some k ↔ k.ReadsBack := by
  cases k <;> simp [Constant.reread?, Constant.ReadsBack]

/-- Neither an infinity nor a NaN. -/
def Constant.IsFinite : Constant → Prop
  | .float x => x.datum.IsFinite
  | .double x => x.datum.IsFinite
  | _ => True

instance : DecidablePred Constant.IsFinite
  | .float x => inferInstanceAs (Decidable x.datum.IsFinite)
  | .double x => inferInstanceAs (Decidable x.datum.IsFinite)
  | .int _ | .long _ | .string _ | .null => inferInstanceAs (Decidable True)

/-- A number whose numeral is short enough to be rounded to it. -/
def Constant.IsShort : Constant → Prop
  | .float x => (Json.ofBinary32 x).IsNumeral Json.Numeral.IsBrief
  | .double x => (Json.ofBinary64 x).IsNumeral Json.Numeral.IsShort
  | _ => True

instance : DecidablePred Constant.IsShort
  | .float x => inferInstanceAs (Decidable ((Json.ofBinary32 x).IsNumeral Json.Numeral.IsBrief))
  | .double x => inferInstanceAs (Decidable ((Json.ofBinary64 x).IsNumeral Json.Numeral.IsShort))
  | .int _ | .long _ | .string _ | .null => inferInstanceAs (Decidable True)

theorem Constant.IsShort.readsBack {k : Constant} (h : k.IsShort) : k.ReadsBack := by
  cases k with
  | float x => exact Json.binary32?_brief h
  | double x => exact Json.binary64?_short h
  | _ => trivial

/-- The constant of an instruction. -/
def Instruction.constant? : Instruction → Option Constant
  | .const k => some k
  | _ => none

theorem Instruction.constant?_eq_some {i : Instruction} {k : Constant} :
    i.constant? = some k ↔ i = .const k := by
  cases i <;> simp [Instruction.constant?]

/-- The constants in code. -/
def Code.constants (code : Code) : List Constant := code.filterMap Instruction.constant?

/-- The constants in the code of a method. -/
def MethodDef.constants (m : MethodDef) : List Constant := Code.constants (m.code.getD [])

/-- The constants in the code of a class. -/
def ClassDef.constants (c : ClassDef) : List Constant := c.methods.flatMap MethodDef.constants

theorem Instruction.reread?_eq_self_iff (i : Instruction) :
    i.reread? = some i ↔ ∀ k ∈ i.constant?, k.ReadsBack := by
  cases i with
  | const k =>
    rw [Instruction.reread?, Option.map_eq_some_iff]
    simp [Instruction.constant?, ← k.reread?_eq_self_iff]
  | _ => simp [Instruction.reread?, Instruction.constant?]

theorem mapM_eq_self_iff {α : Type} {f : α → Option α} {as : List α} :
    as.mapM f = some as ↔ ∀ a ∈ as, f a = some a := by
  induction as with
  | nil => simp
  | cons a as ih =>
    simp only [List.mapM_cons, Option.bind_eq_bind, Option.bind_eq_some_iff, Option.pure_def,
      Option.some.injEq, List.cons.injEq, List.forall_mem_cons, ← ih]
    constructor
    · rintro ⟨b, hb, bs, hbs, rfl, rfl⟩
      exact ⟨hb, hbs⟩
    · rintro ⟨ha, has⟩
      exact ⟨a, ha, as, has, rfl, rfl⟩

theorem MethodDef.reread?_eq_self_iff (m : MethodDef) :
    m.reread? = some m ↔ ∀ k ∈ m.constants, k.ReadsBack := by
  obtain ⟨name, signature, access, annotations, code⟩ := m
  cases code with
  | none => simp [MethodDef.reread?, MethodDef.constants, Code.constants]
  | some code =>
    simp only [MethodDef.reread?, Option.map_eq_some_iff, MethodDef.mk.injEq, true_and,
      Option.some.injEq, exists_eq_right, mapM_eq_self_iff, Instruction.reread?_eq_self_iff,
      MethodDef.constants, Code.constants, Option.getD_some, List.mem_filterMap]
    constructor
    · rintro h k ⟨i, hi, hk⟩
      exact h i hi k hk
    · intro h i hi k hk
      exact h k ⟨i, hi, hk⟩

theorem ClassDef.reread?_eq_self_iff (c : ClassDef) :
    c.reread? = some c ↔ ∀ k ∈ c.constants, k.ReadsBack := by
  obtain ⟨name, superclass, interfaces, access, fields, methods⟩ := c
  simp only [ClassDef.reread?, Option.map_eq_some_iff, ClassDef.mk.injEq, true_and,
    exists_eq_right, mapM_eq_self_iff, MethodDef.reread?_eq_self_iff, ClassDef.constants,
    List.mem_flatMap]
  constructor
  · rintro h k ⟨m, hm, hk⟩
    exact h m hm k hk
  · intro h m hm k hk
    exact h k ⟨m, hm, hk⟩

/-! ## Constants that are lost -/

/-- The constant of an instruction, if there is one, is finite. -/
def Instruction.IsFinite (i : Instruction) : Prop := ∀ k ∈ i.constant?, k.IsFinite

/-- All constants of a method are finite. -/
def MethodDef.IsFinite (m : MethodDef) : Prop := ∀ k ∈ m.constants, k.IsFinite

/-- All constants of a class are finite. -/
def ClassDef.IsFinite (c : ClassDef) : Prop := ∀ k ∈ c.constants, k.IsFinite

instance : DecidablePred ClassDef.IsFinite := fun c =>
  inferInstanceAs (Decidable (∀ k ∈ c.constants, k.IsFinite))

theorem Constant.reread?_eq_none {k : Constant} (h : ¬ k.IsFinite) : k.reread? = none := by
  cases k with
  | float x =>
    cases hx : x.datum with
    | finite s m q => exact absurd ⟨s, m, q, hx⟩ h
    | infinite s => simp [Constant.reread?, Json.ofBinary32, Json.ofDatum, hx, Json.binary32?]
    | nan => simp [Constant.reread?, Json.ofBinary32, Json.ofDatum, hx, Json.binary32?]
  | double x =>
    cases hx : x.datum with
    | finite s m q => exact absurd ⟨s, m, q, hx⟩ h
    | infinite s => simp [Constant.reread?, Json.ofBinary64, Json.ofDatum, hx, Json.binary64?]
    | nan => simp [Constant.reread?, Json.ofBinary64, Json.ofDatum, hx, Json.binary64?]
  | _ => exact absurd trivial h

theorem mapM_eq_none {α β : Type} {f : α → Option β} {as : List α} {a : α} (ha : a ∈ as)
    (h : f a = none) : as.mapM f = none := by
  induction as with
  | nil => cases ha
  | cons b as ih =>
    rcases List.mem_cons.1 ha with rfl | ha
    · simp [List.mapM_cons, h]
    · simp [List.mapM_cons, ih ha]

theorem Instruction.reread?_eq_none {i : Instruction} {k : Constant} (hk : i.constant? = some k)
    (h : ¬ k.IsFinite) : i.reread? = none := by
  cases i with
  | const l =>
    obtain rfl : l = k := Option.some.inj hk
    simp [Instruction.reread?, Constant.reread?_eq_none h]
  | _ => cases hk

theorem MethodDef.reread?_eq_none {m : MethodDef} {k : Constant} (hk : k ∈ m.constants)
    (h : ¬ k.IsFinite) : m.reread? = none := by
  obtain ⟨name, signature, access, annotations, code⟩ := m
  cases code with
  | none => cases hk
  | some code =>
    obtain ⟨i, hi, hk⟩ := List.mem_filterMap.1 hk
    have hcode := mapM_eq_none hi (Instruction.reread?_eq_none hk h)
    exact congrArg (Option.map _) hcode

/-- A class with a number that is not finite has no readable form. -/
theorem ClassDef.reread?_eq_none {c : ClassDef} (h : ¬ c.IsFinite) : c.reread? = none := by
  unfold ClassDef.IsFinite at h
  push Not at h
  obtain ⟨k, hk, hinfinite⟩ := h
  obtain ⟨m, hm, hk⟩ := List.mem_flatMap.1 hk
  rw [ClassDef.reread?, mapM_eq_none hm (MethodDef.reread?_eq_none hk hinfinite), Option.map_none]

/-! ## Documents determine classes -/

theorem Constant.toJson_injective {k l : Constant} (hk : k.IsFinite) (hl : l.IsFinite)
    (h : k.toJson = l.toJson) : k = l := by
  -- Whatever is read back is determined; only binary numbers need their numerals.
  have hread := congrArg (Constant.ofJson? .document) h
  rw [Constant.ofJson?_toJson, Constant.ofJson?_toJson] at hread
  cases k with
  | float x =>
    cases l with
    | float y =>
      have hpayload : Json.ofBinary32 x = Json.ofBinary32 y := by
        simpa [Constant.toJson, Json.record] using h
      rw [Json.ofBinary32_injective hk hl hpayload]
    | _ => simp [Constant.toJson, Json.record, Json.text] at h
  | double x =>
    cases l with
    | double y =>
      have hpayload : Json.ofBinary64 x = Json.ofBinary64 y := by
        simpa [Constant.toJson, Json.record] using h
      rw [Json.ofBinary64_injective hk hl hpayload]
    | _ => simp [Constant.toJson, Json.record, Json.text] at h
  | _ =>
    cases l with
    | float y => simp [Constant.toJson, Json.record, Json.text] at h
    | double y => simp [Constant.toJson, Json.record, Json.text] at h
    | _ => exact Option.some.inj hread

theorem Instruction.isSome_constant? (i : Instruction) :
    i.constant?.isSome ↔ i.document.1 = "const" := by
  cases i <;> simp [Instruction.constant?, Instruction.document]

theorem Instruction.toJson_injective {i j : Instruction} (hi : i.IsFinite) (hj : j.IsFinite)
    (h : i.toJson = j.toJson) : i = j := by
  have hdocument : i.document = j.document := by
    have hmembers := Json.record_injective h
    simp only [List.cons.injEq, Prod.mk.injEq, true_and] at hmembers
    exact Prod.ext (Json.text_injective hmembers.1) hmembers.2
  have hconst : i.constant?.isSome ↔ j.constant?.isSome := by
    rw [i.isSome_constant?, j.isSome_constant?, hdocument]
  cases hk : i.constant? with
  | some k =>
    obtain ⟨l, hl⟩ := Option.isSome_iff_exists.1 (hconst.1 (by rw [hk]; rfl))
    have hfinite := hi k hk
    have hfinite' := hj l hl
    obtain rfl := Instruction.constant?_eq_some.1 hk
    obtain rfl := Instruction.constant?_eq_some.1 hl
    have hpayload : k.toJson = l.toJson := by simpa [Instruction.document] using hdocument
    rw [Constant.toJson_injective hfinite hfinite' hpayload]
  | none =>
    -- Without a constant an instruction is read back as it was.
    have hl : j.constant? = none := by
      rw [← Option.not_isSome_iff_eq_none, ← hconst, hk]
      exact Bool.false_ne_true
    have hread := congrArg (Instruction.ofJson? 0) h
    rw [Instruction.ofJson?_toJson (by decide), Instruction.ofJson?_toJson (by decide),
      i.reread?_eq_self_iff.2 (by simp [hk]), j.reread?_eq_self_iff.2 (by simp [hl])] at hread
    exact Option.some.inj hread

theorem MethodDef.mem_constants {m : MethodDef} {code : Code} {i : Instruction} {k : Constant}
    (hcode : m.code = some code) (hi : i ∈ code) (hk : i.constant? = some k) :
    k ∈ m.constants := by
  rw [MethodDef.constants, hcode]
  exact List.mem_filterMap.2 ⟨i, hi, hk⟩

theorem optionMap_injOn {α β : Type} {f : α → β} {o p : Option α}
    (hf : ∀ a, o = some a → ∀ b, p = some b → f a = f b → a = b) (h : o.map f = p.map f) :
    o = p := by
  cases o with
  | none => simpa [eq_comm] using h
  | some a =>
    cases p with
    | none => simp at h
    | some b => rw [hf a rfl b rfl (Option.some.inj h)]

theorem MethodDef.toJson_injective {m n : MethodDef} (hm : m.IsFinite) (hn : n.IsFinite)
    (h : m.toJson = n.toJson) : m = n := by
  have hfields := congrArg
    (Json.fields? ["name", "signature", "access", "annotations", "code"]) h
  simp only [MethodDef.fields?_toJson, Option.some.injEq, List.cons.injEq, and_true] at hfields
  obtain ⟨hname, hsignature, haccess, hannotations, hcode⟩ := hfields
  have hname := Json.text_injective hname
  have hsignature : m.signature = n.signature := by
    simpa using congrArg (Signature.ofJson? .document) hsignature
  have haccess : m.access = n.access := by
    simpa [Access.ofJson?_toJson] using congrArg Access.ofJson? haccess
  have hannotations : m.annotations = n.annotations := by
    simpa [Json.defaulted_listField Annotation.ofJson?_toJson]
      using congrArg (Json.defaulted (Json.list? Annotation.ofJson?) []) hannotations
  have hcode : m.code = n.code := by
    refine optionMap_injOn (fun code hcode code' hcode' heq => ?_) hcode
    refine Json.map_injOn (fun i hi j hj => ?_) (Json.array.inj heq)
    exact Instruction.toJson_injective (fun k hk => hm k (MethodDef.mem_constants hcode hi hk))
      (fun k hk => hn k (MethodDef.mem_constants hcode' hj hk))
  cases m
  cases n
  simp_all

theorem ClassDef.toJson_injective {c d : ClassDef} (hc : c.IsFinite) (hd : d.IsFinite)
    (h : c.toJson = d.toJson) : c = d := by
  have hfields := congrArg
    (Json.fields? ["name", "superclass", "interfaces", "access", "fields", "methods"]) h
  simp only [ClassDef.fields?_toJson, Option.some.injEq, List.cons.injEq, and_true,
    Json.array.injEq] at hfields
  obtain ⟨hname, hsuperclass, hinterfaces, haccess, hfields, hmethods⟩ := hfields
  have hname := Json.text_injective hname
  have hsuperclass : c.superclass = d.superclass := by
    simpa [Json.nullable_text] using congrArg (Json.nullable Json.text?) hsuperclass
  have hinterfaces : c.interfaces = d.interfaces := by
    simpa [Json.defaulted_listField Json.text?_text]
      using congrArg (Json.defaulted (Json.list? Json.text?) []) hinterfaces
  have haccess : c.access = d.access := by
    simpa [Access.ofJson?_toJson] using congrArg Access.ofJson? haccess
  have hfields : c.fields = d.fields := by
    refine Json.map_injOn (fun f _ g _ heq => ?_) hfields
    simpa [FieldDef.ofJson?_toJson] using congrArg FieldDef.ofJson? heq
  have hmethods : c.methods = d.methods := by
    refine Json.map_injOn (fun m hm n hn => ?_) hmethods
    exact MethodDef.toJson_injective (fun k hk => hc k (List.mem_flatMap.2 ⟨m, hm, hk⟩))
      (fun k hk => hd k (List.mem_flatMap.2 ⟨n, hn, hk⟩))
  cases c
  cases d
  simp_all

theorem ClassDef.toBytes_injective {c d : ClassDef} (hc : c.IsFinite) (hd : d.IsFinite)
    (h : c.toBytes = d.toBytes) : c = d := by
  have hparse := congrArg Json.parse? h
  rw [ClassDef.toBytes, ClassDef.toBytes, Json.parse?_render c.isWritable_toJson,
    Json.parse?_render d.isWritable_toJson] at hparse
  exact ClassDef.toJson_injective hc hd (Option.some.inj hparse)

/--
A class is read back from its stored form exactly if each number in its code is, and it is whenever
these numbers are short. A class with a number that is not finite cannot be read; one with finite
numbers, read back or not, is never stored like another one.
-/
theorem ClassDef.stored_form (c : ClassDef) :
    (ClassDef.ofBytes? c.toBytes = some c ↔ ∀ k ∈ c.constants, k.ReadsBack) ∧
      ((∀ k ∈ c.constants, k.IsShort) → ClassDef.ofBytes? c.toBytes = some c) ∧
      (¬ c.IsFinite → ClassDef.ofBytes? c.toBytes = none) ∧
      (c.IsFinite → ∀ d : ClassDef, d.IsFinite → d.toBytes = c.toBytes → d = c) := by
  have hiff : ClassDef.ofBytes? c.toBytes = some c ↔ ∀ k ∈ c.constants, k.ReadsBack := by
    rw [ClassDef.ofBytes?_toBytes, ClassDef.reread?_eq_self_iff]
  refine ⟨hiff, fun hshort => ?_, fun hc => ?_, fun hc d hd h => ClassDef.toBytes_injective hd hc h⟩
  · exact hiff.2 fun k hk => (hshort k hk).readsBack
  · rw [ClassDef.ofBytes?_toBytes, ClassDef.reread?_eq_none hc]

namespace Almanac

/-- A method that puts a number on the stack and drops it. -/
def reading (name : String) (k : Constant) : MethodDef where
  name
  signature := ⟨[], none⟩
  access := ⟨0x8401⟩
  annotations := [⟨"runtime.View", none⟩]
  code := some [.const k, .pop, .return none]

/-- A tenth in both formats, a text that has to be escaped and an access flag without a name. -/
def page : ClassDef where
  name := "almanac.Page"
  access := ⟨0x8001⟩
  methods := [reading "rain" (.float ⟨0x3dcccccd⟩), reading "tide" (.double ⟨0x3fb999999999999a⟩),
    reading "sky" (.string "\"§\n")]

/-- The number `3 · 10 ^ 23`, which is written as `3e+23` and read as its lower neighbour. -/
def estimate : ClassDef where
  name := "almanac.Estimate"
  methods := [reading "stars" (.double ⟨0x44cfc3842bd1f072⟩)]

theorem estimate_finite : estimate.IsFinite := by
  decide +kernel

theorem page_comes_back :
    (∀ k ∈ page.constants, k.IsShort) ∧ ClassDef.ofBytes? page.toBytes = some page ∧
      page.IsFinite ∧ estimate.IsFinite ∧ estimate.toBytes ≠ page.toBytes := by
  have hshort : ∀ k ∈ page.constants, k.IsShort := by decide +kernel
  have hfinite : page.IsFinite := by decide +kernel
  obtain ⟨-, hback, -, hunique⟩ := ClassDef.stored_form page
  exact ⟨hshort, hback hshort, hfinite, estimate_finite, fun h =>
    absurd (hunique hfinite estimate estimate_finite h) (by decide)⟩

/-- A finite number that is read from its numeral as another one. -/
theorem estimate_changes :
    estimate.IsFinite ∧ ClassDef.ofBytes? estimate.toBytes
      = some { estimate with methods := [reading "stars" (.double ⟨0x44cfc3842bd1f071⟩)] } := by
  refine ⟨estimate_finite, ?_⟩
  rw [ClassDef.ofBytes?_toBytes]
  decide +kernel

end Almanac

end StorageWeave.Bytecode
