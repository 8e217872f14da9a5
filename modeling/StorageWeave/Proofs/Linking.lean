import StorageWeave.Proofs.Dispatch
import StorageWeave.Proofs.Transparency

/-!
# The calls that weaving introduces

Weaving calls accessors in place of fields, and the methods that it adds call each other along the
superclasses. Such a call names a method that its class is given, with the same signature, unless
that class is an interface (`introduced_calls_link`). The other calls that it introduces are hooks
of the platform.
-/

namespace StorageWeave

open Bytecode Weaving Machine

/-! ## The calls of added methods -/

theorem Bytecode.mem_of_invoke_mem_assemble {ds : List Directive} {code : Code} {kind : InvokeKind}
    {owner name : String} {signature : Signature} (h : assemble ds = .ok code)
    (hi : .invoke kind owner name signature ∈ code) :
    .emit (.invoke kind owner name signature) ∈ ds ∨
      ∃ l, .branch (.invoke kind owner name signature) l ∈ ds := by
  obtain ⟨address, rfl, -⟩ := assemble_spec h
  obtain ⟨d, hd, hi⟩ := List.mem_flatMap.1 hi
  cases d with
  | emit i =>
    obtain rfl := List.mem_singleton.1 hi
    exact .inl hd
  | branch i l =>
    rw [MethodWeaver.mapTargets_eq_invoke.1 (List.mem_singleton.1 hi).symm] at hd
    exact .inr ⟨l, hd⟩
  | label l => cases hi

/-- The hooks of the platform that woven code calls, with their classes. -/
def Weaving.Config.hooks (config : Config) : List (String × String) :=
  [(config.storageRoot, Names.fetchLastUpdate), (config.updateAccumulator, Names.recordUpdate),
    (config.updateAccumulator, Names.recursiveExtract), (config.contractRoot, Names.entryHook),
    (config.contractRoot, Names.payableEntryHook)]

namespace Weaving.Augmentation

variable {h : Hierarchy} {c : ClassDef} {k : Classification} {ms : List MethodDef} {m : MethodDef}
  {f : FieldDef} {code : Code} {kind : InvokeKind} {owner name : String} {signature : Signature}

/-- The calls of members in the methods that are added to a storage class. -/
inductive MemberCall (h : Hierarchy) (c : ClassDef) (k : Classification) :
    String → String → Signature → Prop
  | ensureLoaded {f : FieldDef} : f ∈ k.lazyFields →
      MemberCall h c k c.name (Names.ensureLoaded f.name) .void
  | constructor {s : String} : c.superclass = some s →
      MemberCall h c k s constructorName ⟨constructorParams h k.inheritedEager, none⟩
  | extractUpdates {s : String} : c.superclass = some s → h.config.isPlatformRoot s = false →
      MemberCall h c k s Names.extractUpdates (extractSignature h)

theorem invoke_mem_generated {n : String} {s : Signature} {ds : List Directive}
    (hm : generated c n s ds = .ok m) (hcode : m.code = some code)
    (hi : .invoke kind owner name signature ∈ code) :
    .emit (.invoke kind owner name signature) ∈ ds ∨
      ∃ l, .branch (.invoke kind owner name signature) l ∈ ds := by
  obtain ⟨-, -, code', hcode', hassemble⟩ := generated_eq_ok hm
  cases hcode.symm.trans hcode'
  exact mem_of_invoke_mem_assemble hassemble hi

theorem hook_of_mem_ensureLoaded (hm : ensureLoaded h c f = .ok m) (hcode : m.code = some code)
    (hi : .invoke kind owner name signature ∈ code) : (owner, name) ∈ h.config.hooks := by
  rcases invoke_mem_generated hm hcode hi with hi | ⟨l, hi⟩
  · obtain ⟨-, rfl, rfl, -⟩ : kind = .virtual ∧ owner = h.config.storageRoot ∧
        name = Names.fetchLastUpdate ∧ signature = fetchSignature h := by
      simpa [ensureLoadedBody, emitAll, thisField, Instruction.loadThis, Instruction.string]
        using hi
    simp [Config.hooks]
  · simp [ensureLoadedBody, emitAll] at hi

theorem memberCall_of_mem_getter (hf : f ∈ k.lazyFields) (hm : getter c f = .ok m)
    (hcode : m.code = some code) (hi : .invoke kind owner name signature ∈ code) :
    MemberCall h c k owner name signature := by
  rcases invoke_mem_generated hm hcode hi with hi | ⟨l, hi⟩
  · obtain ⟨-, rfl, rfl, rfl⟩ : kind = .special ∧ owner = c.name ∧
        name = Names.ensureLoaded f.name ∧ signature = .void := by
      simpa [getterBody, emitAll, thisField, ensureLoadedCall, Instruction.loadThis] using hi
    exact .ensureLoaded hf
  · simp [getterBody, emitAll] at hi

theorem memberCall_of_mem_setter (hf : f ∈ k.lazyFields) (hm : setter c f = .ok m)
    (hcode : m.code = some code) (hi : .invoke kind owner name signature ∈ code) :
    MemberCall h c k owner name signature := by
  rcases invoke_mem_generated hm hcode hi with hi | ⟨l, hi⟩
  · obtain ⟨-, rfl, rfl, rfl⟩ : kind = .special ∧ owner = c.name ∧
        name = Names.ensureLoaded f.name ∧ signature = .void := by
      simpa [setterBody, emitAll, ensureLoadedCall, Instruction.loadThis] using hi
    exact .ensureLoaded hf
  · simp [setterBody, emitAll] at hi

theorem memberCall_of_mem_constructor (hm : constructor h c k = .ok m) (hcode : m.code = some code)
    (hi : .invoke kind owner name signature ∈ code) : MemberCall h c k owner name signature := by
  obtain ⟨-, -, s, inherited, own, slot, last, code', hs, hinherited, -, hassemble, hcode'⟩ :=
    constructor_eq_ok hm
  cases hcode.symm.trans hcode'
  rcases mem_of_invoke_mem_assemble hassemble hi with hi | ⟨l, hi⟩
  · obtain ⟨-, rfl, rfl, rfl⟩ : kind = .special ∧ owner = s ∧ name = constructorName ∧
        signature = ⟨constructorParams h (inherited.map (·.field)), none⟩ := by
      simpa [constructorBody, emitAll, initializeField, Instruction.loadThis] using hi
    rw [fields_of_assignSlots hinherited]
    exact .constructor hs
  · simp [constructorBody, emitAll] at hi

theorem not_mem_compareWithShadow :
    .emit (.invoke kind owner name signature) ∉ compareWithShadow c f ∧
      ∀ l, .branch (.invoke kind owner name signature) l ∉ compareWithShadow c f := by
  unfold compareWithShadow
  split <;> simp [emitAll, thisField, Instruction.loadThis]

theorem hook_of_mem_updateField
    (hi : .emit (.invoke kind owner name signature) ∈ updateField h c f) :
    (owner, name) ∈ h.config.hooks := by
  have hi : .invoke kind owner name signature ∈
      (if h.isLeaf f.type then [] else recurseInto h c f) ++ recordField h c f := by
    simpa [updateField, not_mem_compareWithShadow, emitAll] using hi
  rcases List.mem_append.1 hi with hi | hi
  · split at hi
    · cases hi
    · obtain ⟨-, rfl, rfl, -⟩ : kind = .virtual ∧ owner = h.config.updateAccumulator ∧
          name = Names.recursiveExtract ∧
          signature = ⟨[.reference h.config.objectType], none⟩ := by
        simpa [recurseInto, thisField, Instruction.loadThis] using hi
      simp [Config.hooks]
  · obtain ⟨-, rfl, rfl, -⟩ : kind = .virtual ∧ owner = h.config.updateAccumulator ∧
        name = Names.recordUpdate ∧ signature = ⟨[.reference h.config.storageReferenceType,
          .reference h.config.stringType, .reference h.config.stringType,
          .reference h.config.stringType, recordedType h f.type], none⟩ := by
      simpa [recordField, thisField, Instruction.loadThis, Instruction.string] using hi
    simp [Config.hooks]

theorem call_of_mem_extractUpdates (hm : extractUpdates h c k = .ok m) (hcode : m.code = some code)
    (hi : .invoke kind owner name signature ∈ code) :
    (owner, name) ∈ h.config.hooks ∨ MemberCall h c k owner name signature := by
  obtain ⟨s, hs, hm⟩ := bind_eq_ok.1 hm
  rcases invoke_mem_generated hm hcode hi with hi | ⟨l, hi⟩
  · rcases List.mem_append.1 hi with hi | hi
    · rcases List.mem_append.1 hi with hi | hi
      · split at hi
        · cases hi
        · next hroot =>
          obtain ⟨-, rfl, rfl, rfl⟩ : kind = .special ∧ owner = s ∧ name = Names.extractUpdates ∧
              signature = extractSignature h := by
            simpa [emitAll, Instruction.loadThis] using hi
          exact .inr (.extractUpdates (superclass_eq_ok hs) (by simpa using hroot))
      · obtain ⟨f, -, hi⟩ := List.mem_flatMap.1 hi
        exact .inl (hook_of_mem_updateField hi)
    · simp at hi
  · rcases List.mem_append.1 hi with hi | hi
    · rcases List.mem_append.1 hi with hi | hi
      · split at hi <;> simp [emitAll] at hi
      · obtain ⟨f, -, hi⟩ := List.mem_flatMap.1 hi
        simp [updateField, not_mem_compareWithShadow, emitAll] at hi
    · simp at hi

/-- **The calls of added methods** are hooks of the platform and members of the class or of its
superclass. -/
theorem call_of_mem_members (hms : members h c k = .ok ms) (hm : m ∈ ms)
    (hcode : m.code = some code) (hi : .invoke kind owner name signature ∈ code) :
    (owner, name) ∈ h.config.hooks ∨ MemberCall h c k owner name signature := by
  rcases (mem_members hms).1 hm with ⟨f, hf, hm | hm | hm⟩ | hm | hm
  · exact .inl (hook_of_mem_ensureLoaded hm hcode hi)
  · exact .inr (memberCall_of_mem_getter hf hm hcode hi)
  · exact .inr (memberCall_of_mem_setter hf hm hcode hi)
  · exact .inr (memberCall_of_mem_constructor hm hcode hi)
  · exact call_of_mem_extractUpdates hm hcode hi

end Weaving.Augmentation

/-! ## What woven classes declare -/

/-- The woven form of a class declares a method. -/
def WovenDeclares (w : WovenArchive) (owner name : String) (signature : Signature) : Prop :=
  ∃ c, w.program.classes.get? owner = some c ∧ (c.method? name signature).isSome

theorem WovenDeclares.of_generated {w : WovenArchive} {owner name : String} {signature : Signature}
    {c c' : ClassDef} {ds : List Directive} (hc' : w.program.classes.get? owner = some c')
    (hhas : Has c' (Augmentation.generated c name signature ds)) :
    WovenDeclares w owner name signature := by
  obtain ⟨m, hm, hfound⟩ := hhas
  obtain ⟨rfl, rfl, -⟩ := Augmentation.generated_eq_ok hm
  exact ⟨c', hc', by rw [hfound]; rfl⟩

namespace WovenAlone

variable {input : Archive} {w : WovenArchive} {h : Hierarchy} {n : String} {c d : ClassDef}

theorem get?_index (hw : WovenAlone input w h) (hc : c ∈ input.classes) :
    h.index.get? c.name = some c := by
  obtain ⟨built, hbuilt, hindex⟩ := hw.indexed
  rw [← hindex]
  exact Weaving.get?_index hbuilt hw.distinctNames hc

theorem mem_of_get? (hw : WovenAlone input w h) (hd : h.index.get? n = some d) :
    d ∈ input.classes ∧ d.name = n := by
  rw [← hw.get?_ofClasses] at hd
  exact Program.mem_of_get?_ofClasses hd

/-- The members of a storage class are declared by its woven form. -/
theorem exists_members (hw : WovenAlone input w h) (hd : h.index.get? n = some d)
    (hclass : d.isInterface = false) (hs : h.isStorage n = true) :
    ∃ k d', h.classify d = .ok k ∧ w.program.classes.get? n = some d' ∧
      (∀ f ∈ k.lazyFields, Augmentation.HasAccessors h d f d') ∧
      Has d' (Augmentation.constructor h d k) ∧ Has d' (Augmentation.extractUpdates h d k) := by
  obtain ⟨-, rfl⟩ := hw.mem_of_get? hd
  rw [← hw.get?_ofClasses] at hd
  obtain ⟨d', ms, added, hd', hout⟩ := hw.exists_output hd
  obtain ⟨k, hk, hmembers⟩ := hout.members hclass hs
  exact ⟨k, d', hk, hd', hmembers⟩

/-- An interface is woven without further methods. -/
theorem exists_of_wovenDeclares (hw : WovenAlone input w h) (hd : h.index.get? n = some d)
    (hinterface : d.isInterface = true) {name : String} {signature : Signature}
    (hdeclares : WovenDeclares w n name signature) : ∃ m ∈ d.methods, m.name = name := by
  rw [← hw.get?_ofClasses] at hd
  obtain ⟨d', ms, added, hd', hout⟩ := hw.exists_output hd
  obtain ⟨d'', hd'', hfound⟩ := hdeclares
  cases hd'.symm.trans hd''
  obtain ⟨m', hm'⟩ := Option.isSome_iff_exists.1 hfound
  obtain ⟨hmem, hname, -⟩ := ClassDef.mem_of_method? hm'
  have hgiven := hout.given
  rw [Augmentation.added, if_neg (by simp [hinterface])] at hgiven
  cases hgiven
  rw [hout.methods, List.append_nil] at hmem
  obtain ⟨wm, hwm, rfl⟩ := List.mem_map.1 hmem
  obtain ⟨m, hm, hweave⟩ := exists_of_forall₂_right hout.woven hwm
  obtain ⟨-, -, hkept, -⟩ := MethodWeaver.exists_role hweave
  exact ⟨m, hm, hkept.symm.trans hname⟩

end WovenAlone

/-! ## The levels of a class and of its superclass -/

theorem Lineage.exists_of_eagerLevelsFrom {h : Hierarchy} {classes : List ClassDef}
    (hindexed : ∀ n c, h.index.get? n = some c → c ∈ classes ∧ c.name = n) {bottom : String}
    {fuel : Nat} {visited : List String} {below out : List (List FieldDef)} {c : ClassDef}
    (hc : c ∈ classes) (hout : h.eagerLevelsFrom bottom fuel visited below c = .ok out) :
    ∃ levels, Lineage h.config classes levels c := by
  induction fuel generalizing visited below c with
  | zero => cases hout
  | succ fuel ih =>
    rw [Hierarchy.eagerLevelsFrom] at hout
    split at hout
    · cases hout
    rcases hs : c.superclass with _ | s
    · simp only [hs] at hout
      cases hout
    simp only [hs] at hout
    split at hout
    · next hroot => exact ⟨_, .top hc hs hroot⟩
    next hroot =>
    rcases hd : h.index.get? s with _ | d
    · simp only [hd] at hout
      cases hout
    simp only [hd] at hout
    obtain ⟨hmem, rfl⟩ := hindexed s d hd
    obtain ⟨levels, hl⟩ := ih hmem hout
    exact ⟨_, .child hl hc hs (by simpa using hroot)⟩

/-- What a class inherits for its constructor is all that its superclass takes for its own. -/
theorem WovenAlone.inheritedEager_eq {input : Archive} {w : WovenArchive} {h : Hierarchy}
    (hw : WovenAlone input w h) {c d : ClassDef} (hc : c ∈ input.classes)
    (hd : h.index.get? d.name = some d) (hs : c.superclass = some d.name)
    (hroot : h.config.isPlatformRoot d.name = false) {k kd : Classification}
    (hk : h.classify c = .ok k) (hkd : h.classify d = .ok kd) :
    k.inheritedEager = kd.allEager := by
  have hindex : ∀ c ∈ input.classes, h.index.get? c.name = some c := fun c => hw.get?_index
  obtain ⟨levels, hl⟩ : ∃ levels, Lineage h.config input.classes levels c := by
    obtain ⟨out, hout, -⟩ := bind_eq_ok.1 hk
    exact Lineage.exists_of_eagerLevelsFrom (fun _ _ => hw.mem_of_get?) hc hout
  have hlevels := (hl.eagerLevels_eq hindex hk).1
  cases hl with
  | top _ hs' hroot' =>
    cases hs.symm.trans hs'
    rw [hroot] at hroot'
    cases hroot'
  | @child levels d' _ hl' _ hs' _ =>
    have hname : d'.name = d.name := Option.some.inj (hs'.symm.trans hs)
    have hd' := hindex d' hl'.mem_classes
    rw [hname, hd] at hd'
    cases hd'
    rw [Classification.inheritedEager, Classification.allEager, hlevels,
      (hl'.eagerLevels_eq hindex hkd).1]
    simp

/-! ## Roles of names that no class declares -/

namespace Weaving.Hierarchy

variable {h : Hierarchy} {name : String} {signature : Signature}

theorem annotationFrom_of_undeclared
    (hname : ∀ n c, h.index.get? n = some c → c.method? name signature = none) {kind : String}
    {fuel : Nat} {owner : String} {r : Option Annotation}
    (hr : h.annotationFrom kind fuel ⟨owner, name, signature⟩ = .ok r) : r = none := by
  induction fuel generalizing owner r with
  | zero => cases hr
  | succ fuel ih =>
    rcases r with _ | a
    · rfl
    rw [annotationFrom, annotationAt] at hr
    rcases hc : h.index.get? owner with _ | c
    · simp only [hc] at hr
      cases hr
    simp only [hc, hname owner c hc] at hr
    split at hr
    · cases hr
    · obtain ⟨parent, hparent⟩ := exists_of_firstSomeM hr
      exact ih hparent

/-- A method that no class declares is not an entry. -/
theorem role_of_undeclared
    (hname : ∀ n c, h.index.get? n = some c → c.method? name signature = none) {owner : String}
    {role : Role} (hrole : (Oracle.exact h).role h.config ⟨owner, name, signature⟩ = .ok role) :
    role = .plain := by
  obtain ⟨payable, hpayable, hrole⟩ := bind_eq_ok.1 hrole
  rw [annotationFrom_of_undeclared hname hpayable] at hrole
  obtain ⟨entry, hentry, hrole⟩ := bind_eq_ok.1 hrole
  rw [annotationFrom_of_undeclared hname hentry] at hrole
  exact (Except.ok.inj hrole).symm

end Weaving.Hierarchy

/-! ## The calls of a woven class -/

section Calls

variable (h : Hierarchy) (c : ClassDef) (m : MethodDef) (kind : InvokeKind) (owner name : String)
  (signature : Signature)

/-- A call in the code of a method, with the signature of the role of what it calls. -/
def KeptCall : Prop :=
  ∃ code s role, m.code = some code ∧ .invoke kind owner name s ∈ code ∧
    (Oracle.exact h).role h.config ⟨owner, name, s⟩ = .ok role ∧
    signature = role.signature h.config s

/-- A call in the place of an access to a field in the code of a method. -/
def AccessorCall : Prop :=
  ∃ code i s role, m.code = some code ∧ i ∈ code ∧ i ≠ .invoke kind owner name s ∧
    MethodWeaver.redirect h (.exact h) c i = .ok (.invoke kind owner name s) ∧
    (Oracle.exact h).role h.config ⟨owner, name, s⟩ = .ok role ∧
    signature = role.signature h.config s

/-- A call in the prologue of an entry. -/
def PrologueCall : Prop :=
  ∃ slot expected amount, .invoke kind owner name signature ∈
    MethodWeaver.prologueCode h slot expected amount

/-- A call in the methods that a class is given. -/
def AddedCall : Prop :=
  ∃ ms m code, Augmentation.added h c = .ok ms ∧ m ∈ ms ∧ m.code = some code ∧
    .invoke kind owner name signature ∈ code

end Calls

theorem PrologueCall.hook {h : Hierarchy} {kind : InvokeKind} {owner name : String}
    {signature : Signature} (hcall : PrologueCall h kind owner name signature) :
    (owner, name) ∈ h.config.hooks := by
  obtain ⟨slot, expected, amount, hi⟩ := hcall
  cases amount with
  | none =>
    obtain ⟨-, rfl, rfl, -⟩ : kind = .special ∧ owner = h.config.contractRoot ∧
        name = Names.entryHook ∧ signature = ⟨[.reference h.config.contractRoot], none⟩ := by
      simpa [MethodWeaver.prologueCode, Instruction.loadThis] using hi
    simp [Config.hooks]
  | some type =>
    obtain ⟨-, rfl, rfl, -⟩ : kind = .special ∧ owner = h.config.contractRoot ∧
        name = Names.payableEntryHook ∧
        signature = ⟨[.reference h.config.contractRoot, type], none⟩ := by
      simpa [MethodWeaver.prologueCode, Instruction.loadThis] using hi
    simp [Config.hooks]

/-- Whether an access has the type of the field it finds. -/
def Weaving.Hierarchy.isTyped (h : Hierarchy) : Instruction → Bool
  | .getField owner name type => (h.resolveField owner name).all fun r => r.field.type = type
  | .putField owner name type => (h.resolveField owner name).all fun r => r.field.type = type
  | _ => true

/--
An archive that is woven by itself, as far as it matters for the calls that are introduced: the
platform roots are not in it, no interface is the superclass of another class, no method has the
name of an added one, and accesses have the types of the fields they find.
-/
structure Linkable (input : Archive) (w : WovenArchive) (h : Hierarchy) : Prop
    extends WovenAlone input w h where
  storageRoot : h.index.get? h.config.storageRoot = none
  contractRoot : h.index.get? h.config.contractRoot = none
  superclasses : ∀ c ∈ input.classes, ∀ d ∈ input.classes, c ≠ d → c.superclass = some d.name →
    d.isInterface = false
  ordinary : ∀ c ∈ input.classes, ∀ m ∈ c.methods, Names.isSynthetic m.name = false
  typed : ∀ c ∈ input.classes, ∀ m ∈ c.methods, ∀ code ∈ m.code, ∀ i ∈ code, h.isTyped i = true

namespace Linkable

variable {input : Archive} {w : WovenArchive} {h : Hierarchy} {c d : ClassDef} {m : MethodDef}
  {kind : InvokeKind} {owner name : String} {signature : Signature}

/-- Calls of marked names keep their signatures. -/
theorem signature_eq (hw : Linkable input w h) (hname : Names.isSynthetic name = true) {role : Role}
    (hrole : (Oracle.exact h).role h.config ⟨owner, name, signature⟩ = .ok role) :
    role.signature h.config signature = signature := by
  have hplain : role = .plain := by
    refine Hierarchy.role_of_undeclared (fun n c hc => ?_) hrole
    rw [ClassDef.method?, List.find?_eq_none]
    intro m hm hnamed
    obtain ⟨rfl, -⟩ : m.name = name ∧ m.signature = signature := by
      simpa [MethodDef.isNamed] using hnamed
    rw [hw.ordinary c (hw.mem_of_get? hc).1 m hm] at hname
    cases hname
  rw [hplain]
  rfl

/-- The accessors of a lazy field are declared, unless its class is an interface. -/
theorem accessors_declared (hw : Linkable input w h) (hd : h.index.get? owner = some d)
    (hs : h.isStorage owner = true) {f : FieldDef} (hf : f ∈ h.lazyFields d) :
    (WovenDeclares w owner (Names.getter f.name) ⟨[], some f.type⟩ ↔ d.isInterface = false) ∧
      (WovenDeclares w owner (Names.setter f.name) ⟨[f.type], none⟩ ↔ d.isInterface = false) := by
  have hinterface {name : String} {signature : Signature} (hname : Names.isSynthetic name = true)
      (hdeclares : WovenDeclares w owner name signature) : d.isInterface = false := by
    by_contra hinterface
    obtain ⟨m, hm, rfl⟩ := hw.exists_of_wovenDeclares hd (by simpa using hinterface) hdeclares
    rw [hw.ordinary d (hw.mem_of_get? hd).1 m hm] at hname
    cases hname
  have hmembers (hclass : d.isInterface = false) : ∃ d', w.program.classes.get? owner = some d' ∧
      Augmentation.HasAccessors h d f d' := by
    obtain ⟨k, d', hk, hd', haccessors, -⟩ := hw.exists_members hd hclass hs
    exact ⟨d', hd', haccessors f (by rwa [Hierarchy.lazyFields_of_classify hk])⟩
  refine ⟨⟨hinterface (Names.isSynthetic_getter _), fun hclass => ?_⟩,
    ⟨hinterface (Names.isSynthetic_setter _), fun hclass => ?_⟩⟩
  · obtain ⟨d', hd', haccessors⟩ := hmembers hclass
    exact .of_generated hd' haccessors.getter
  · obtain ⟨d', hd', haccessors⟩ := hmembers hclass
    exact .of_generated hd' haccessors.setter

/-- **A call in the place of an access** finds its accessor, unless its class is an interface. -/
theorem accessorCall_links (hw : Linkable input w h) (hc : c ∈ input.classes) (hm : m ∈ c.methods)
    (hcall : AccessorCall h c m kind owner name signature) :
    ∃ d, h.index.get? owner = some d ∧
      (WovenDeclares w owner name signature ↔ d.isInterface = false) := by
  obtain ⟨code, i, s, role, hcode, hi, hne, hredirect, hrole, rfl⟩ := hcall
  obtain ⟨hkept, -⟩ | ⟨owner', field, type, declaring, ha, haccess⟩ :=
    MethodWeaver.redirect_eq_ok hredirect
  · exact absurd hkept.symm hne
  have htyped (r : ResolvedField) (hr : h.resolveField owner' field = some r) :
      r.field.type = type := by
    have hi := hw.typed c hc m hm code hcode i hi
    rcases haccess with ⟨rfl, -⟩ | ⟨rfl, -⟩ <;>
      simpa only [Hierarchy.isTyped, hr, Option.all_some, decide_eq_true_eq] using hi
  obtain ⟨d, f, hf, hd, hs, -, rfl, rfl⟩ :=
    MethodWeaver.exists_lazyField hw.storageRoot (fun _ => htyped) ha
  obtain ⟨hgetter, hsetter⟩ := hw.accessors_declared hd hs hf
  rcases haccess with ⟨-, heq⟩ | ⟨-, heq⟩
  · cases heq
    rw [hw.signature_eq (Names.isSynthetic_getter _) hrole]
    exact ⟨d, hd, hgetter⟩
  · cases heq
    rw [hw.signature_eq (Names.isSynthetic_setter _) hrole]
    exact ⟨d, hd, hsetter⟩

theorem isPlatformRoot_of_get? (hw : Linkable input w h) (hd : h.index.get? owner = some d) :
    h.config.isPlatformRoot owner = false := by
  rw [Config.isPlatformRoot, decide_eq_false_iff_not]
  rintro (rfl | rfl)
  · rw [hw.storageRoot] at hd
    cases hd
  · rw [hw.contractRoot] at hd
    cases hd

/-- A call of a member finds it. -/
theorem memberCall_links (hw : Linkable input w h) (hc : c ∈ input.classes)
    (hclass : c.isInterface = false) (hstorage : h.isStorage c.name = true) {k : Classification}
    (hk : h.classify c = .ok k) (hcall : Augmentation.MemberCall h c k owner name signature)
    (hd : h.index.get? owner = some d) : WovenDeclares w owner name signature := by
  have hparent {s : String} (hs : c.superclass = some s) (hd : h.index.get? s = some d) :
      h.config.isPlatformRoot s = false ∧ d.isInterface = false ∧ h.isStorage s = true := by
    obtain ⟨hdc, rfl⟩ := hw.mem_of_get? hd
    refine ⟨hw.isPlatformRoot_of_get? hd, ?_, ?_⟩
    · by_cases hcd : c = d
      · rwa [← hcd]
      · exact hw.superclasses c hc d hdc hcd hs
    · have hne : c.name ≠ h.config.storageRoot := by
        intro hroot
        have hindexed := hw.get?_index hc
        rw [hroot, hw.storageRoot] at hindexed
        cases hindexed
      have hup := (Hierarchy.superclassOf_of_get? (hw.get?_index hc)).trans hs
      rwa [Hierarchy.isStorage, Hierarchy.descendsFrom_superclass hup hne] at hstorage
  cases hcall with
  | ensureLoaded hf =>
    obtain ⟨k', c', hk', hc', haccessors, -⟩ := hw.exists_members (hw.get?_index hc) hclass hstorage
    cases hk.symm.trans hk'
    exact .of_generated hc' (haccessors _ hf).ensureLoaded
  | constructor hs =>
    obtain ⟨hroot, hparent, hstorage'⟩ := hparent hs hd
    obtain ⟨kd, d', hkd, hd', -, ⟨m, hm, hfound⟩, -⟩ := hw.exists_members hd hparent hstorage'
    obtain ⟨hname, hsignature, -⟩ := Augmentation.constructor_eq_ok hm
    obtain ⟨-, rfl⟩ := hw.mem_of_get? hd
    rw [hw.inheritedEager_eq hc hd hs hroot hk hkd, ← hsignature, ← hname]
    exact ⟨d', hd', by rw [hfound]; rfl⟩
  | extractUpdates hs _ =>
    obtain ⟨-, hparent, hstorage'⟩ := hparent hs hd
    obtain ⟨kd, d', -, hd', -, -, ⟨m, hm, hfound⟩⟩ := hw.exists_members hd hparent hstorage'
    obtain ⟨s, -, hm⟩ := bind_eq_ok.1 hm
    exact .of_generated hd' ⟨m, hm, hfound⟩

/-- **A call in an added method** is a hook, or finds its member. -/
theorem addedCall_links (hw : Linkable input w h) (hc : c ∈ input.classes)
    (hcall : AddedCall h c kind owner name signature) :
    (owner, name) ∈ h.config.hooks ∨
      ((h.index.get? owner).isSome → WovenDeclares w owner name signature) := by
  obtain ⟨ms, m, code, hms, hm, hcode, hi⟩ := hcall
  unfold Augmentation.added at hms
  split at hms
  · next hgiven =>
    obtain ⟨k, hk, hms⟩ := bind_eq_ok.1 hms
    refine (Augmentation.call_of_mem_members hms hm hcode hi).imp_right fun hcall hindexed => ?_
    obtain ⟨d, hd⟩ := Option.isSome_iff_exists.1 hindexed
    exact hw.memberCall_links hc hgiven.1 hgiven.2 hk hcall hd
  · cases hms
    cases hm

end Linkable

/-- **Where the calls of a woven class come from.** -/
theorem Weaving.Output.call_cases {w : WovenArchive} {h : Hierarchy} {c c' : ClassDef}
    {ms : List WovenMethod} {added : List MethodDef} (hout : Output h c c' ms added)
    (hc' : w.program.classes.get? c.name = some c') {m' : MethodDef} (hm' : m' ∈ c'.methods)
    {code' : Code} (hcode' : m'.code = some code') {kind : InvokeKind} {owner name : String}
    {signature : Signature} (hi : .invoke kind owner name signature ∈ code') :
    AddedCall h c kind owner name signature ∨
      ∃ m ∈ c.methods, WovenTo w h c m c' m' ∧ (KeptCall h m kind owner name signature ∨
        AccessorCall h c m kind owner name signature ∨
        PrologueCall h kind owner name signature) := by
  have hmem := hm'
  rw [hout.methods] at hm'
  rcases List.mem_append.1 hm' with hm' | hm'
  · obtain ⟨wm, hwm, rfl⟩ := List.mem_map.1 hm'
    obtain ⟨m, hm, hweave⟩ := exists_of_forall₂_right hout.woven hwm
    obtain ⟨-, -, -, -, hkept⟩ := MethodWeaver.exists_role hweave
    obtain ⟨code, hcode⟩ : ∃ code, m.code = some code := by
      rw [← Option.isSome_iff_exists, ← hkept, hcode']
      rfl
    refine .inr ⟨m, hm, ⟨hc', hmem, wm.prologue, hweave⟩, ?_⟩
    obtain hprologue | ⟨s, role, hrole, hs, hi | ⟨i, hi, hne, hredirect⟩⟩ :=
      MethodWeaver.origin_of_invoke hweave hcode hcode' hi
    · exact .inr (.inr hprologue)
    · exact .inl ⟨code, s, role, hcode, hi, hrole, hs⟩
    · exact .inr (.inl ⟨code, i, s, role, hcode, hi, hne, hredirect, hrole, hs⟩)
  · exact .inl ⟨added, m', code', hout.given, hm', hcode', hi⟩

/--
**The calls that weaving introduces link.** A call in a woven class is in a method that the class is
given, or it is kept from the method that was woven, stands for an access to a field in it, or is in
its prologue. A call for an access finds the accessor that it names in its class, unless that class
is an interface. A call in a given method finds what it names, if that is of a class of the archive,
or is a hook of the platform, as the call of a prologue is.
-/
theorem introduced_calls_link {input : Archive} {w : WovenArchive} {h : Hierarchy}
    (hw : Linkable input w h) {c : ClassDef} (hc : c ∈ input.classes) :
    (∃ c', w.program.classes.get? c.name = some c' ∧ ∀ m' ∈ c'.methods, ∀ code',
      m'.code = some code' → ∀ kind owner name signature,
        .invoke kind owner name signature ∈ code' →
          AddedCall h c kind owner name signature ∨
            ∃ m ∈ c.methods, WovenTo w h c m c' m' ∧ (KeptCall h m kind owner name signature ∨
              AccessorCall h c m kind owner name signature ∨
              PrologueCall h kind owner name signature)) ∧
    ∀ kind owner name signature,
      (∀ m ∈ c.methods, AccessorCall h c m kind owner name signature →
        ∃ d, h.index.get? owner = some d ∧
          (WovenDeclares w owner name signature ↔ d.isInterface = false)) ∧
      (AddedCall h c kind owner name signature → (owner, name) ∈ h.config.hooks ∨
        ((h.index.get? owner).isSome → WovenDeclares w owner name signature)) ∧
      (PrologueCall h kind owner name signature → (owner, name) ∈ h.config.hooks) := by
  refine ⟨?_, fun kind owner name signature => ⟨fun m hm => hw.accessorCall_links hc hm,
    hw.addedCall_links hc, PrologueCall.hook⟩⟩
  have hloaded : (Program.ofClasses input.classes).classes.get? c.name = some c := by
    rw [hw.get?_ofClasses, hw.get?_index hc]
  obtain ⟨c', ms, added, hc', hout⟩ := hw.exists_output hloaded
  exact ⟨c', hc', fun m' hm' code' hcode' _ _ _ _ => hout.call_cases hc' hm' hcode'⟩

/-! ### Calls that link, and one that does not -/

theorem exists_linkable {input : Archive} {built : ClassIndex.Building}
    {classes results : List ClassDef}
    (hwoven : input.classes = classes ∧ ClassIndex.build [input] = .ok built ∧
      wovenClasses input = .ok results)
    (hdistinct : ∀ c ∈ classes, ∀ d ∈ classes, c.name = d.name → c = d)
    (hroots : built.index.get? "runtime.Storage" = none ∧
      built.index.get? "runtime.Contract" = none)
    (hsuper : ∀ c ∈ classes, ∀ d ∈ classes, c ≠ d → c.superclass = some d.name →
      d.isInterface = false)
    (hmethods : ∀ c ∈ classes, ∀ m ∈ c.methods, Names.isSynthetic m.name = false ∧
      ∀ code ∈ m.code, ∀ i ∈ code, built.hierarchy.isTyped i = true) :
    ∃ w, Linkable input w built.hierarchy := by
  obtain ⟨rfl, hindex, hwoven⟩ := hwoven
  obtain ⟨w, hw, -⟩ := exists_weaveArchive hwoven
  exact ⟨w, ⟨hw, ⟨_, hindex, rfl⟩, hdistinct⟩, hroots.1, hroots.2, hsuper,
    fun c hc m hm => (hmethods c hc m hm).1, fun c hc m hm => (hmethods c hc m hm).2⟩

theorem addedCall_of_any {h : Hierarchy} {c : ClassDef} {kind : InvokeKind} {owner name : String}
    {signature : Signature}
    (hany : (Augmentation.added h c).toOption.any (fun ms => ms.any fun m => m.code.any fun code =>
      .invoke kind owner name signature ∈ code) = true) :
    AddedCall h c kind owner name signature := by
  rcases hms : Augmentation.added h c with e | ms
  · rw [hms] at hany
    cases hany
  · rw [hms] at hany
    obtain ⟨m, hm, hany⟩ := List.any_eq_true.1 hany
    obtain ⟨code, hcode, hi⟩ := (Option.any_eq_true _ _).1 hany
    exact ⟨ms, m, code, hms, hm, hcode, of_decide_eq_true hi⟩

theorem accessorCall_of_readCode {h : Hierarchy} {c : ClassDef} {m : MethodDef}
    {owner name declaring accessor : String} {type : FieldType} {kind : ValueKind}
    {signature : Signature} (hcode : m.code = some (readCode owner name type kind))
    (hredirect : MethodWeaver.redirect h (.exact h) c (.getField owner name type) =
      .ok (.invoke .special declaring accessor signature))
    (hrole : (Oracle.exact h).role h.config ⟨declaring, accessor, signature⟩ = .ok .plain) :
    AccessorCall h c m .special declaring accessor signature :=
  ⟨_, .getField owner name type, signature, .plain, hcode,
    List.mem_cons_of_mem _ List.mem_cons_self, nofun, hredirect, hrole, rfl⟩

namespace Chain

/-- The chain reads its link through the accessor. -/
theorem accessorCall_next : ∃ m ∈ node.methods, AccessorCall index.hierarchy node m .special
    "a.Node" (Names.getter "next") ⟨[], some link⟩ :=
  ⟨_, List.mem_singleton_self _,
    accessorCall_of_readCode rfl (by decide +kernel) (by decide +kernel)⟩

end Chain

namespace Bank

/-- The parameters of the constructor of an account. -/
def deserializing : Signature :=
  ⟨[.reference "runtime.StorageReference", .primitive .long], none⟩

/-- The constructor of a savings account calls that of an account. -/
theorem addedCall_account :
    AddedCall index.hierarchy savings .special "bank.Account" constructorName deserializing :=
  addedCall_of_any (by decide +kernel)

/-- The accessor that a chain calls, and the constructor that a savings account calls, are there. -/
theorem calls_link :
    (∃ w, Linkable Chain.archive w Chain.index.hierarchy ∧ Chain.node ∈ Chain.archive.classes ∧
      WovenDeclares w "a.Node" (Names.getter "next") ⟨[], some Chain.link⟩) ∧
    ∃ w, Linkable archive w index.hierarchy ∧ savings ∈ archive.classes ∧
      WovenDeclares w "bank.Account" constructorName deserializing := by
  constructor
  · obtain ⟨w, hw⟩ := exists_linkable Chain.woven (by decide) (by decide +kernel) (by decide)
      (by decide +kernel)
    have hnode : Chain.node ∈ Chain.archive.classes := by
      rw [Chain.woven.1]
      exact List.mem_singleton_self _
    obtain ⟨m, hm, hcall⟩ := Chain.accessorCall_next
    obtain ⟨d, hd, hlinks⟩ := ((introduced_calls_link hw hnode).2 _ _ _ _).1 m hm hcall
    have hindexed : Chain.index.hierarchy.index.get? "a.Node" = some Chain.node := by decide +kernel
    cases hd.symm.trans hindexed
    exact ⟨w, hw, hnode, hlinks.2 rfl⟩
  · obtain ⟨w, hw⟩ := exists_linkable woven (by decide) (by decide +kernel) (by decide)
      (by decide +kernel)
    have hsavings : savings ∈ archive.classes := by
      rw [woven.1]
      exact List.mem_cons_of_mem _ List.mem_cons_self
    refine ⟨w, hw, hsavings, ?_⟩
    rcases ((introduced_calls_link hw hsavings).2 _ _ _ _).2.1 addedCall_account with hhook | hlinks
    · exact absurd hhook (by decide)
    · exact hlinks (by decide +kernel)

end Bank

namespace Leaflet

def text : FieldType := .reference "lang.String"

/-- An interface with a lazy field, which a method of it reads. -/
def leaflet : ClassDef where
  name := "lib.Leaflet"
  superclass := some "runtime.Storage"
  access := .interface
  fields := [⟨"text", text, .none⟩]
  methods := [{
    name := "read"
    signature := ⟨[], some text⟩
    code := some (readCode "lib.Leaflet" "text" text .reference) }]

def archive : Archive where
  entries := [⟨"lib/Leaflet.class", leaflet.toBytes⟩]
  distinct := by decide

def index : ClassIndex.Building where
  index := ⟨[⟨leaflet, leaflet.toBytes⟩]⟩

theorem woven : archive.classes = [leaflet] ∧ ClassIndex.build [archive] = .ok index ∧
    wovenClasses archive = .ok [wovenResult index.hierarchy leaflet] :=
  woven_of_stored (by decide) rfl (by decide) (by decide) (by decide +kernel)

/-- An interface calls an accessor that it is not given. -/
theorem accessor_missing : ∃ w, Linkable archive w index.hierarchy ∧ leaflet ∈ archive.classes ∧
    (∃ m ∈ leaflet.methods, AccessorCall index.hierarchy leaflet m .special "lib.Leaflet"
      (Names.getter "text") ⟨[], some text⟩) ∧
    (index.hierarchy.index.get? "lib.Leaflet").isSome ∧
    ¬ WovenDeclares w "lib.Leaflet" (Names.getter "text") ⟨[], some text⟩ := by
  obtain ⟨w, hw⟩ := exists_linkable woven (by decide) (by decide +kernel) (by decide)
    (by decide +kernel)
  have hleaflet : leaflet ∈ archive.classes := by
    rw [woven.1]
    exact List.mem_singleton_self _
  have hindexed : index.hierarchy.index.get? "lib.Leaflet" = some leaflet := by decide +kernel
  refine ⟨w, hw, hleaflet, ⟨_, List.mem_singleton_self _,
    accessorCall_of_readCode rfl (by decide +kernel) (by decide +kernel)⟩,
    by rw [hindexed]; rfl, ?_⟩
  intro hdeclares
  obtain ⟨m, hm, hname⟩ := hw.exists_of_wovenDeclares hindexed rfl hdeclares
  obtain rfl := List.mem_singleton.1 hm
  revert hname
  decide

end Leaflet

end StorageWeave
