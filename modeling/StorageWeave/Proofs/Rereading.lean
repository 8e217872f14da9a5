import StorageWeave.Proofs.Calls
import StorageWeave.Proofs.Container
import StorageWeave.Proofs.Stored

/-!
# Reading woven archives

The class entries of a woven archive hold the stored forms of the woven classes. Weaving keeps the
constants of a class and adds only texts and one integer to them (`Output.mem_constants`,
`added_of_mem_members`), so whether a woven archive can be read again depends on the numbers of the
classes that were woven and on nothing that weaving does (`weaveArchive_reads_back`).
-/

namespace StorageWeave

open Bytecode Weaving Machine

/-! ## Constants of code -/

namespace Bytecode

@[simp] theorem Instruction.constant?_mapTargets (τ : Target → Target) (i : Instruction) :
    (i.mapTargets τ).constant? = i.constant? := by
  cases i <;> rfl

theorem Code.mem_constants {code : Code} {k : Constant} :
    k ∈ Code.constants code ↔ .const k ∈ code := by
  simp [Code.constants, List.mem_filterMap, Instruction.constant?_eq_some]

@[simp] theorem Code.constants_nil : Code.constants [] = [] := rfl

@[simp] theorem Code.constants_cons (i : Instruction) (code : Code) :
    Code.constants (i :: code) = i.constant?.toList ++ Code.constants code := by
  cases h : i.constant? <;> simp [Code.constants, h]

@[simp] theorem Code.constants_append (code code' : Code) :
    Code.constants (code ++ code') = Code.constants code ++ Code.constants code' :=
  List.filterMap_append

/-- Assembling keeps the constants. -/
theorem constants_assemble {ds : List Directive} {code : Code} (h : assemble ds = .ok code) :
    Code.constants code = Code.constants (ds.flatMap Directive.raw) := by
  obtain ⟨address, rfl, -⟩ := assemble_spec h
  clear h
  induction ds with
  | nil => rfl
  | cons d ds ih =>
    simp only [List.flatMap_cons, Code.constants_append, ih]
    cases d <;> simp [Directive.raw, Directive.resolved]

end Bytecode

namespace Weaving

/-! ## Constants of woven methods -/

namespace MethodWeaver

variable {h : Hierarchy} {c : ClassDef} {m : MethodDef} {w : WovenMethod} {code code' : Code}
  {k : Constant}

theorem constants_redirect (hr : code.mapM (redirect h (.exact h) c) = .ok code') :
    Code.constants code' = Code.constants code := by
  have hstep {i i' : Instruction} (hi : redirect h (.exact h) c i = .ok i') :
      i'.constant? = i.constant? := by
    obtain ⟨rfl, -⟩ | ⟨owner, name, type, declaring, -, ⟨rfl, rfl⟩ | ⟨rfl, rfl⟩⟩ :=
      redirect_eq_ok hi <;> rfl
  have hcode := forall₂_of_mapM hr
  clear hr
  induction hcode with
  | nil => rfl
  | cons hi _ ih => rw [Code.constants_cons, Code.constants_cons, hstep hi, ih]

theorem constants_forward (hf : forward h (.exact h) c m code = .ok code') :
    Code.constants code' = Code.constants code := by
  have hblock {i : Instruction} {r : Option Instruction} (τ : Target → Target)
      (hr : forwarded? h (.exact h) c m i = .ok r) :
      Code.constants (forwardedBlock (i.mapTargets τ) r) = i.constant?.toList := by
    obtain ⟨rfl, -⟩ | ⟨kind, owner, name, signature, role, rfl, -, rfl⟩ := forwarded?_eq_ok hr
    · simp [forwardedBlock]
    · cases role.isEntry <;> rfl
  obtain ⟨calls, τ, hcalls, rfl⟩ := forward_eq_ok hf
  clear hf
  induction hcalls with
  | nil => rfl
  | cons hi _ ih =>
    rw [List.map_cons, List.zipWith_cons_cons, List.flatten_cons, Code.constants_append,
      Code.constants_cons, hblock τ hi, ih]

theorem mem_constants_splices {τ : Target → Target} {position : Nat} {block : Code}
    (hs : Splices τ code position block code') (hblock : Code.constants block = []) :
    k ∈ Code.constants code' ↔ k ∈ Code.constants code := by
  rw [Code.mem_constants, Code.mem_constants]
  constructor
  · intro hk
    rcases hs.origin _ hk with hk | ⟨i, hi, hk⟩
    · rw [← Code.mem_constants, hblock] at hk
      cases hk
    · have hconstant : i.constant? = some k := by
        rw [← Instruction.constant?_mapTargets τ, ← hk]
        rfl
      rwa [← Instruction.constant?_eq_some.1 hconstant]
  · intro hk
    obtain ⟨b, hb⟩ := List.mem_iff_getElem?.1 hk
    have hkept := hs.getElem? b
    rw [hb] at hkept
    exact List.mem_of_getElem? hkept

theorem constants_prologueCode (h : Hierarchy) (slot : UInt16) (expected : Option String)
    (amount : Option FieldType) : Code.constants (prologueCode h slot expected amount) = [] := by
  dsimp only [prologueCode]
  generalize expected.filter _ = cast
  cases cast <;> cases amount <;> rfl

/-- Weaving keeps the constants of a method. -/
theorem mem_constants (hw : weave h (.exact h) c m = .ok w) :
    k ∈ w.method.constants ↔ k ∈ m.constants := by
  obtain ⟨-, -, -, -, hsome⟩ := exists_role hw
  unfold MethodDef.constants
  cases hcode : m.code with
  | none =>
    rw [hcode, Option.isSome_none, Option.isSome_eq_false_iff, Option.isNone_iff_eq_none] at hsome
    rw [hsome]
  | some code =>
    obtain ⟨redirected, body, woven, hredirected, hbody, hwoven, hsite⟩ := exists_body hw hcode
    rw [hwoven, Option.getD_some, Option.getD_some, ← constants_redirect hredirected,
      ← constants_forward hbody]
    obtain rfl | ⟨position, slot, expected, amount, τ, hsplices⟩ := hsite
    · rfl
    · exact mem_constants_splices hsplices (constants_prologueCode h slot expected amount)

end MethodWeaver

/-! ## Constants of added methods -/

namespace Augmentation

variable {h : Hierarchy} {c : ClassDef} {f : FieldDef} {m : MethodDef} {k : Classification}
  {ms : List MethodDef} {a : Constant}

theorem constants_generated {name : String} {signature : Signature} {ds : List Directive}
    (hm : generated c name signature ds = .ok m) :
    m.constants = Code.constants (ds.flatMap Directive.raw) := by
  obtain ⟨-, -, code, hcode, hassemble⟩ := generated_eq_ok hm
  rw [MethodDef.constants, hcode, Option.getD_some, constants_assemble hassemble]

theorem flatMap_raw_emitAll (is : List Instruction) : (emitAll is).flatMap Directive.raw = is := by
  simp [emitAll, List.flatMap_map, Directive.raw]

theorem constants_ensureLoadedBody :
    Code.constants ((ensureLoadedBody h c f).flatMap Directive.raw)
      = [.int 1, .string c.name, .string f.name, .string f.type.typeName] := rfl

theorem constants_constructorBody (s : String) (inherited own : List SlottedField) :
    Code.constants ((constructorBody h c s inherited own).flatMap Directive.raw) = [] := by
  rw [constructorBody, flatMap_raw_emitAll, Code.constants, List.filterMap_eq_nil_iff]
  simp only [List.mem_append, List.mem_map, List.mem_flatMap, List.mem_cons, List.not_mem_nil,
    or_false, initializeField]
  rintro i (((((rfl | rfl) | ⟨f, -, rfl⟩) | rfl) | ⟨f, -, target, -, rfl | rfl | rfl⟩) | rfl) <;>
    rfl

theorem constants_compareWithShadow :
    Code.constants ((compareWithShadow c f).flatMap Directive.raw) = [] := by
  unfold compareWithShadow
  split <;> rfl

theorem constants_updateField :
    Code.constants ((updateField h c f).flatMap Directive.raw)
      = [.string c.name, .string f.name, .string f.type.tag] := by
  rw [updateField, List.flatMap_append, List.flatMap_append, flatMap_raw_emitAll,
    Code.constants_append, Code.constants_append, constants_compareWithShadow]
  split <;> rfl

theorem constants_extractBody (s : String) (fields : List FieldDef) :
    Code.constants ((extractBody h c s fields).flatMap Directive.raw)
      = fields.flatMap fun f => [.string c.name, .string f.name, .string f.type.tag] := by
  have hsuper : Code.constants ((emitAll (if h.config.isPlatformRoot s then []
      else [.loadThis, .load .reference 1,
        .invoke .special s Names.extractUpdates (extractSignature h)])).flatMap Directive.raw)
      = [] := by
    split <;> rfl
  have hreturn : Code.constants ([Directive.emit (.return none)].flatMap Directive.raw) = [] := rfl
  rw [extractBody, List.flatMap_append, List.flatMap_append, Code.constants_append,
    Code.constants_append, hsuper, hreturn, List.nil_append, List.append_nil]
  induction fields with
  | nil => rfl
  | cons f fields ih =>
    rw [List.flatMap_cons, List.flatMap_append, Code.constants_append, constants_updateField, ih,
      List.flatMap_cons]

/-- The methods that a storage class is given hold texts and the number that sets a flag. -/
theorem added_of_mem_members (hms : members h c k = .ok ms) (hm : m ∈ ms) (ha : a ∈ m.constants) :
    a = .int 1 ∨ ∃ s, a = .string s := by
  rcases (mem_members hms).1 hm with ⟨f, -, hm | hm | hm⟩ | hm | hm
  · rw [constants_generated hm, constants_ensureLoadedBody] at ha
    grind
  · rw [constants_generated hm] at ha
    cases ha
  · rw [constants_generated hm] at ha
    cases ha
  · obtain ⟨-, -, s, inherited, own, slot, last, code, -, -, -, hassemble, hcode⟩ :=
      constructor_eq_ok hm
    rw [MethodDef.constants, hcode, Option.getD_some, constants_assemble hassemble,
      constants_constructorBody] at ha
    cases ha
  · obtain ⟨s, -, hm⟩ := bind_eq_ok.1 hm
    rw [constants_generated hm, constants_extractBody] at ha
    grind

theorem added_of_mem (hms : added h c = .ok ms) (hm : m ∈ ms) (ha : a ∈ m.constants) :
    a = .int 1 ∨ ∃ s, a = .string s := by
  unfold added at hms
  split at hms
  · obtain ⟨k, -, hms⟩ := bind_eq_ok.1 hms
    exact added_of_mem_members hms hm ha
  · cases hms
    cases hm

end Augmentation

/-! ## Classes and archives -/

section Classes

variable {h : Hierarchy} {c c' : ClassDef} {ms : List WovenMethod} {added : List MethodDef}
  {k : Constant}

/-- Weaving keeps the constants of a class, and those of the added methods come to them. -/
theorem Output.mem_constants (hout : Output h c c' ms added) :
    k ∈ c'.constants ↔ k ∈ c.constants ∨ ∃ m ∈ added, k ∈ m.constants := by
  have hmethods : (∃ wm ∈ ms, k ∈ wm.method.constants) ↔ ∃ m ∈ c.methods, k ∈ m.constants := by
    constructor
    · rintro ⟨wm, hwm, hk⟩
      obtain ⟨m, hm, hwoven⟩ := exists_of_forall₂_right hout.woven hwm
      exact ⟨m, hm, (MethodWeaver.mem_constants hwoven).1 hk⟩
    · rintro ⟨m, hm, hk⟩
      obtain ⟨wm, hwm, hwoven⟩ := exists_of_forall₂_right hout.woven.flip hm
      exact ⟨wm, hwm, (MethodWeaver.mem_constants hwoven).2 hk⟩
  simp only [ClassDef.constants, hout.methods, List.flatMap_append, List.mem_append,
    List.mem_flatMap, List.mem_map, exists_exists_and_eq_and, hmethods]

/-- A woven class is read back exactly if the numbers of the class are. -/
theorem Output.ofBytes?_toBytes_iff (hout : Output h c c' ms added) :
    ClassDef.ofBytes? c'.toBytes = some c' ↔ ∀ k ∈ c.constants, k.ReadsBack := by
  rw [ClassDef.ofBytes?_toBytes, ClassDef.reread?_eq_self_iff]
  constructor
  · exact fun hread k hk => hread k (hout.mem_constants.2 (.inl hk))
  · intro hread k hk
    rcases hout.mem_constants.1 hk with hk | ⟨m, hm, hk⟩
    · exact hread k hk
    · obtain rfl | ⟨s, rfl⟩ := Augmentation.added_of_mem hout.given hm hk <;> trivial

/-- A class with a number that is not finite is woven into one that cannot be read. -/
theorem Output.ofBytes?_toBytes_eq_none (hout : Output h c c' ms added) (hc : ¬ c.IsFinite) :
    ClassDef.ofBytes? c'.toBytes = none := by
  rw [ClassDef.ofBytes?_toBytes, ClassDef.reread?_eq_none]
  exact fun hc' => hc fun k hk => hc' k (hout.mem_constants.2 (.inl hk))

end Classes

/-- A woven entry holds the stored form of its class. -/
theorem ArchiveWeaver.data_eq {h : Hierarchy} {e : Archive.Entry} {r : WovenEntry}
    (hr : weaveEntry h (.exact h) e = .ok r) :
    r.woven.map (·.result.toBytes) = if r.entry.isClass then some r.entry.data else none := by
  obtain ⟨hclass, rfl⟩ | ⟨hclass, c, wc, -, -, rfl⟩ := weaveEntry_eq_ok hr
  · rw [hclass]
    rfl
  · have hclass : Archive.Entry.isClass ⟨e.name, wc.result.toBytes⟩ = true := hclass
    rw [hclass]
    rfl

theorem classData_eq {woven : List WovenEntry}
    (h : ∀ r ∈ woven, r.woven.map (·.result.toBytes) =
      if r.entry.isClass then some r.entry.data else none) :
    ((woven.map (·.entry)).filter Archive.Entry.isClass).map (·.data) =
      (woven.filterMap (·.woven)).map (·.result.toBytes) := by
  rw [List.map_filterMap, List.filterMap_congr h, List.filter_map, List.map_map,
    ← List.filterMap_eq_map', List.filterMap_filter]
  rfl

/-- The class entries of a woven archive hold the stored forms of its classes. -/
theorem weaveArchive_data {input : Archive} {dependencies : List Archive} {config : Config}
    {w : WovenArchive} (hw : weaveArchive input dependencies config = .ok w) :
    w.result.classEntries.map (·.data) = w.report.classes.map (·.result.toBytes) := by
  obtain ⟨built, woven, -, hentries, hpush, hreport⟩ := weaveArchive_eq_ok hw
  rw [Archive.classEntries, Archive.pushAll_eq_ok.1 hpush, hreport]
  refine classData_eq fun r hr => ?_
  obtain ⟨e, -, he⟩ := exists_of_forall₂_right hentries hr
  exact ArchiveWeaver.data_eq he

theorem forall_iff_of_forall₂ {α β : Type} {P : α → Prop} {Q : β → Prop} {as : List α}
    {bs : List β} (h : List.Forall₂ (fun a b => Q b ↔ P a) as bs) :
    (∀ a ∈ as, P a) ↔ ∀ b ∈ bs, Q b := by
  induction h with
  | nil => simp
  | cons hab _ ih => simp [hab, ih]

/--
The class entries of a woven archive hold the stored forms of the classes that weaving made. Each of
them is read back as that class exactly if the numbers in the class that was woven are read back,
and cannot be read at all if one of these is not finite.
-/
theorem weaveArchive_reads_back {input : Archive} {dependencies : List Archive} {config : Config}
    {w : WovenArchive} (hw : weaveArchive input dependencies config = .ok w) :
    ∃ built, ClassIndex.build (input :: dependencies) = .ok built ∧
      w.result.classEntries.map (·.data) = w.report.classes.map (·.result.toBytes) ∧
      List.Forall₂ (fun c wc =>
        ClassWeaver.weave ⟨built.index, config⟩ (.exact ⟨built.index, config⟩) c = .ok wc ∧
          (ClassDef.ofBytes? wc.result.toBytes = some wc.result ↔
            ∀ k ∈ c.constants, k.ReadsBack) ∧
          (¬ c.IsFinite → ClassDef.ofBytes? wc.result.toBytes = none))
        input.classes w.report.classes ∧
      ((∀ c ∈ input.classes, ∀ k ∈ c.constants, k.ReadsBack) ↔
        w.result.classEntries.map (fun e => ClassDef.ofBytes? e.data) =
          w.report.classes.map fun wc => some wc.result) := by
  obtain ⟨built, hbuilt, hclasses⟩ := weaveArchive_exact hw
  have hdata := weaveArchive_data hw
  have hread {c : ClassDef} {wc : WovenClass} (hwoven : ClassWeaver.weave ⟨built.index, config⟩
      (.exact ⟨built.index, config⟩) c = .ok wc) :
      (ClassDef.ofBytes? wc.result.toBytes = some wc.result ↔ ∀ k ∈ c.constants, k.ReadsBack) ∧
        (¬ c.IsFinite → ClassDef.ofBytes? wc.result.toBytes = none) := by
    obtain ⟨ms, added, hout⟩ := ClassWeaver.exists_output hwoven
    exact ⟨hout.ofBytes?_toBytes_iff, hout.ofBytes?_toBytes_eq_none⟩
  refine ⟨built, hbuilt, hdata, hclasses.imp fun c wc hwoven => ⟨hwoven, hread hwoven⟩, ?_⟩
  rw [forall_iff_of_forall₂ (hclasses.imp fun c wc hwoven => (hread hwoven).1)]
  have hmap : w.result.classEntries.map (fun e => ClassDef.ofBytes? e.data)
      = w.report.classes.map fun wc => ClassDef.ofBytes? wc.result.toBytes := by
    simpa [Function.comp_def] using congrArg (List.map ClassDef.ofBytes?) hdata
  rw [hmap, List.map_inj_left]

end Weaving

namespace Gazette

/-- A storage class with a lazy field and a method that returns a tenth. -/
def issue : ClassDef where
  name := "gazette.Issue"
  superclass := some "runtime.Storage"
  fields := [⟨"headline", .reference "lang.String", .none⟩]
  methods := [{
    name := "price"
    signature := ⟨[], some (.primitive .float)⟩
    code := some [.const (.float ⟨0x3dcccccd⟩), .return (some .float)] }]

def archive : Archive where
  entries := [⟨"gazette/Issue.class", issue.toBytes⟩]
  distinct := by decide

/-- A class that is given five methods comes back with all of them. -/
theorem issue_reads_back : ∃ w, weaveArchive archive [] {} = .ok w ∧
    (w.report.classes.map fun wc => wc.result.methods.length) = [6] ∧
    (∀ c ∈ archive.classes, ∀ k ∈ c.constants, k.ReadsBack) ∧
    w.result.classEntries.map (fun e => ClassDef.ofBytes? e.data) =
      w.report.classes.map fun wc => some wc.result := by
  have hissue : ∀ k ∈ issue.constants, k.ReadsBack := by decide +kernel
  have hclasses : archive.classes = [issue] := by
    have hback : ClassDef.ofBytes? issue.toBytes = some issue := by
      rwa [ClassDef.ofBytes?_toBytes, ClassDef.reread?_eq_self_iff]
    have hentries : archive.classEntries = [⟨"gazette/Issue.class", issue.toBytes⟩] := rfl
    simp [Archive.classes, hentries, hback]
  have hread : ∀ c ∈ archive.classes, ∀ k ∈ c.constants, k.ReadsBack := by
    rw [hclasses]
    exact List.forall_mem_singleton.2 hissue
  obtain ⟨w, hw, hmethods⟩ : ∃ w, weaveArchive archive [] {} = .ok w ∧
      (w.report.classes.map fun wc => wc.result.methods.length) = [6] :=
    exists_eq_ok_of_any (by decide +kernel)
  obtain ⟨built, -, -, -, hiff⟩ := weaveArchive_reads_back hw
  exact ⟨w, hw, hmethods, hread, hiff.1 hread⟩

/-- A class with a number beyond the range of its format. -/
def flare : String :=
  "\x7b\"name\":\"gazette.Flare\",\"methods\":[\x7b\"name\":\"burn\","
    ++ "\"signature\":\x7b\"params\":[]\x7d,\"code\":["
    ++ "\x7b\"opcode\":\"const\",\"value\":\x7b\"float\":1e39\x7d\x7d,"
    ++ "\x7b\"opcode\":\"throw\"\x7d]\x7d]\x7d"

def flares : Archive where
  entries := [⟨"gazette/Flare.class", Bytes.ofText flare⟩]
  distinct := by decide

/-- The number is read as an infinity, for which no number is written. -/
theorem flare_lost : ∃ w, weaveArchive flares [] {} = .ok w ∧
    w.result.classEntries.map (fun e => ClassDef.ofBytes? e.data) = [none] :=
  exists_eq_ok_of_any (by decide +kernel)

end Gazette

end StorageWeave
