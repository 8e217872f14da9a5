import StorageWeave.Proofs.Assembly
import StorageWeave.Proofs.Hooks

/-!
# Accessors of lazy fields

The accessors of a lazy field load it first, unless the object is fresh or has it already. What they
do to a state is `State.ensure`; the lemmas `gives_ensureLoaded`, `gives_getter` and `gives_setter`
say that the generated methods do just that.
-/

namespace StorageWeave

open Bytecode Weaving

namespace Machine

namespace State

/-- The persisted value of a field, or null. -/
def persistedOf (s : State) (r : ResolvedField) : Value :=
  (s.persisted.get? (r.declaring, r.field.name)).getD .null

/-- The record of a fetch of a field. -/
def fetchOf (r : ResolvedField) : Fetch := ⟨r.declaring, r.field.name, r.field.type.typeName⟩

/-- Loads a lazy field of the object at a place. -/
def load (s : State) (o : Nat) (r : ResolvedField) : State :=
  let fetched := { s.write o (Names.loadedFlag r.field.name) (.int 1) with
    fetches := s.fetches.push (fetchOf r) }
  (fetched.write o r.field.name (s.persistedOf r)).write o (Names.shadow r.field.name)
    (s.persistedOf r)

/-- What a value says about being persisted. -/
def stored (s : State) (this : Value) : Value :=
  s.read this Names.inStorage Augmentation.boolean

/-- What a value says about having a lazy field. -/
def loaded (s : State) (this : Value) (r : ResolvedField) : Value :=
  s.read this (Names.loadedFlag r.field.name) Augmentation.boolean

/-- Loads a lazy field of a persisted object that does not have it. -/
def ensure (s : State) (this : Value) (r : ResolvedField) : State :=
  match this with
  | .object o =>
    if s.stored this ≠ .int 0 ∧ s.loaded this r = .int 0 then s.load o r else s
  | _ => s

variable {s : State} {this : Value} {r : ResolvedField}

/-- Only an object on the heap says that it is persisted. -/
theorem exists_object_of_stored (h : s.stored this ≠ .int 0) :
    ∃ o, this = .object o ∧ o < s.heap.size := by
  rcases this with _ | _ | _ | _ | _ | _ | o
  case object =>
    refine ⟨o, rfl, ?_⟩
    by_contra hsize
    refine h ?_
    rw [stored, read, field?, Array.getElem?_eq_none (Nat.le_of_not_lt hsize)]
    rfl
  all_goals exact absurd rfl h

theorem ensure_of_fresh (h : s.stored this = .int 0) : s.ensure this r = s := by
  unfold ensure
  split
  · exact if_neg fun hs => hs.1 h
  · rfl

theorem ensure_of_missing {o : Nat} (hstored : s.stored (.object o) ≠ .int 0)
    (hloaded : s.loaded (.object o) r = .int 0) : s.ensure (.object o) r = s.load o r :=
  if_pos ⟨hstored, hloaded⟩

theorem ensure_of_loaded (h : s.loaded this r ≠ .int 0) : s.ensure this r = s := by
  unfold ensure
  split
  · exact if_neg fun hs => h hs.2
  · rfl

@[simp] theorem size_load (s : State) (o : Nat) (r : ResolvedField) :
    (s.load o r).heap.size = s.heap.size := by
  simp [load]

@[simp] theorem size_ensure (s : State) (this : Value) (r : ResolvedField) :
    (s.ensure this r).heap.size = s.heap.size := by
  unfold ensure
  split
  · split
    · exact size_load ..
    · rfl
  · rfl

theorem place?_ensure (s : State) (this : Value) (r : ResolvedField) (v : Value) :
    (s.ensure this r).place? v = s.place? v := by
  cases v <;> simp [place?]

end State

/-- The names under which an object keeps a lazy field, its shadow and its flag. -/
def parts (r : ResolvedField) : List String :=
  [r.field.name, Names.shadow r.field.name, Names.loadedFlag r.field.name]

theorem mem_parts {r : ResolvedField} {n : String} : n ∈ parts r ↔
    n = r.field.name ∨ n = Names.shadow r.field.name ∨ n = Names.loadedFlag r.field.name := by
  simp [parts]

/-- Fields with different names that are not marked have different parts. -/
theorem not_mem_parts {r r' : ResolvedField} (hr : Names.isSynthetic r.field.name = false)
    (hr' : Names.isSynthetic r'.field.name = false) (hne : r.field.name ≠ r'.field.name)
    {n : String} (hn : n ∈ parts r) : n ∉ parts r' := by
  have hmarked {a b : String} (ha : Names.isSynthetic a = false) (hb : Names.isSynthetic b = true) :
      a ≠ b := by
    rintro rfl
    rw [ha] at hb
    cases hb
  rw [mem_parts] at hn ⊢
  rintro (he | he | he) <;> rcases hn with rfl | rfl | rfl
  · exact hne he
  · exact hmarked hr' (Names.isSynthetic_shadow _) he.symm
  · exact hmarked hr' (Names.isSynthetic_loadedFlag _) he.symm
  · exact hmarked hr (Names.isSynthetic_shadow _) he
  · exact hne (Names.shadow_injective he)
  · exact Names.shadow_ne_loadedFlag _ _ he.symm
  · exact hmarked hr (Names.isSynthetic_loadedFlag _) he
  · exact Names.shadow_ne_loadedFlag _ _ he
  · exact hne (Names.loadedFlag_injective he)

namespace State

variable {s : State} {o : Nat} {r : ResolvedField}

/-- A load writes the parts of its field only. -/
theorem field?_load_of_ne (ho : o < s.heap.size) {id : Nat} {n : String}
    (hn : id = o → n ∉ parts r) : (s.load o r).field? (.object id) n = s.field? (.object id) n := by
  simp only [mem_parts, not_or] at hn
  rw [load, field?_write _ (by simpa using ho), if_neg fun hs => (hn hs.1.symm).2.1 hs.2.symm,
    field?_write _ (by simpa using ho), if_neg fun hs => (hn hs.1.symm).1 hs.2.symm]
  exact (field?_write s ho id _ n _).trans (if_neg fun hs => (hn hs.1.symm).2.2 hs.2.symm)

/-- A loaded field has the persisted value, and its flag is set. -/
theorem field?_load (ho : o < s.heap.size) (hr : Names.isSynthetic r.field.name = false) :
    (s.load o r).field? (.object o) r.field.name = some (s.persistedOf r) ∧
      (s.load o r).field? (.object o) (Names.loadedFlag r.field.name) = some (.int 1) := by
  have hname : Names.loadedFlag r.field.name ≠ r.field.name := by
    intro he
    rw [← he, Names.isSynthetic_loadedFlag] at hr
    cases hr
  refine ⟨?_, ?_⟩
  · rw [load, field?_write _ (by simpa using ho), field?_write _ (by simpa using ho)]
    simp
  · rw [load, field?_write _ (by simpa using ho),
      if_neg fun hs => Names.shadow_ne_loadedFlag _ _ hs.2, field?_write _ (by simpa using ho),
      if_neg fun hs => hname hs.2.symm]
    exact field?_write_self s ho _ _

@[simp] theorem className?_load (id : Nat) : (s.load o r).className? id = s.className? id := by
  rw [load, className?_write, className?_write]
  exact className?_write ..

@[simp] theorem persisted_load : (s.load o r).persisted = s.persisted := rfl

@[simp] theorem fetches_load : (s.load o r).fetches = s.fetches.push (fetchOf r) := rfl

end State

/-- The flags that the accessors of a lazy field read are numbers. -/
def FlagsValid (s : State) (this : Value) (r : ResolvedField) : Prop :=
  (∃ x, s.stored this = .int x) ∧ ∃ y, s.loaded this r = .int y

/-- The class of the object at a place descends from a platform root. -/
def IsStored (p : Program) (s : State) (o : Nat) : Prop :=
  ∃ className, s.className? o = some className ∧
    ∃ root n, p.config.isPlatformRoot root = true ∧ climb p.superclassOf n className = some root

/-- The code that loads a lazy field; it ends at `done`. -/
def loadCode (h : Hierarchy) (c : ClassDef) (f : FieldDef) (done : Target) : Code :=
  [.loadThis, .getField h.config.storageRoot Names.inStorage Augmentation.boolean,
    .branchIf .eq done,
    .loadThis, .getField c.name (Names.loadedFlag f.name) Augmentation.boolean,
    .branchIf .ne done,
    .loadThis, .const (.int 1), .putField c.name (Names.loadedFlag f.name) Augmentation.boolean,
    .loadThis, .string c.name, .string f.name, .string f.type.typeName,
    .invoke .virtual h.config.storageRoot Names.fetchLastUpdate (Augmentation.fetchSignature h),
    .checkCast f.type.typeName, .store .reference 1,
    .loadThis, .load .reference 1, .putField c.name f.name f.type,
    .loadThis, .load .reference 1, .putField c.name (Names.shadow f.name) f.type,
    .return none]

/-- The code that reads a lazy field. -/
def getterCode (c : ClassDef) (f : FieldDef) : Code :=
  [.loadThis, Augmentation.ensureLoadedCall c f, .loadThis, .getField c.name f.name f.type,
    .return (some f.type.valueKind)]

/-- The code that writes a lazy field. -/
def setterCode (c : ClassDef) (f : FieldDef) : Code :=
  [.loadThis, Augmentation.ensureLoadedCall c f, .loadThis, .load f.type.valueKind 1,
    .putField c.name f.name f.type, .return none]

theorem assemble_ensureLoadedBody {h : Hierarchy} {c : ClassDef} {f : FieldDef} {code : Code}
    (hcode : assemble (Augmentation.ensureLoadedBody h c f) = .ok code) :
    code = loadCode h c f 22 := by
  obtain ⟨address, rfl, haddress⟩ := assemble_spec hcode
  have hbody : Augmentation.ensureLoadedBody h c f =
      (Augmentation.ensureLoadedBody h c f).take 22 ++ .label "done" :: [.emit (.return none)] :=
    rfl
  have hdone : address "done" = 22 := haddress _ _ _ hbody
  show loadCode h c f (address "done").toUInt64 = _
  rw [hdone]
  rfl

theorem assemble_emitAll {is code : Code} (hcode : assemble (Augmentation.emitAll is) = .ok code) :
    code = is := by
  obtain ⟨address, rfl, -⟩ := assemble_spec hcode
  rw [Augmentation.emitAll, Directive.flatMap_resolved_emit]

theorem holds_compare_zero (x : Int32) : holds .eq (compare x.toInt 0) = decide (x = 0) ∧
    holds .ne (compare x.toInt 0) = decide (x ≠ 0) := by
  have hcompare : compare x.toInt (0 : Int32).toInt = .eq ↔ x = 0 :=
    Std.LawfulEqCmp.compare_eq_iff_eq.trans Int32.toInt_inj
  exact ⟨decide_eq_decide.2 hcompare, decide_eq_decide.2 (not_congr hcompare)⟩

end Machine

open Machine

/-- A lazy field of a class that is given accessors for it. -/
structure IsLazyField (h : Hierarchy) (classes : List ClassDef) (c : ClassDef) (f : FieldDef) : Prop
    where
  mem : c ∈ classes
  storage : h.isStorage c.name = true
  concrete : c.isInterface = false
  declared : f ∈ h.lazyFields c

namespace WovenProgram

variable {h : Hierarchy} {classes : List ClassDef} {p : Program} {s : State} {locals : Locals}
  {this : Value} {c : ClassDef} {f : FieldDef}

theorem gives_fetch (hp : WovenProgram h classes p) (hno : NoHookMethods classes) {owner : String}
    {signature : Signature} {o : Nat} (ho : IsStored p s o) (className field typeName : String) :
    p.Gives ⟨.virtual, owner, Names.fetchLastUpdate, signature,
        [.object o, .str className, .str field, .str typeName]⟩ s
      ⟨.ok (some ((s.persisted.get? (className, field)).getD .null)),
        { s with fetches := s.fetches.push ⟨className, field, typeName⟩ }⟩ := by
  obtain ⟨objectClass, hcls, root, n, hroot, hclimb⟩ := ho
  rw [hp.config] at hroot
  refine hp.gives_hook hno (by simp [hookNames]) hcls hclimb
    (by rw [hp.hierarchyConfig]; exact Config.mem_platformTypes hroot) ?_
  simp only [Config.isPlatformRoot, decide_eq_true_eq] at hroot
  rcases hroot with rfl | rfl <;> rfl

theorem length_loadCode_le {done : Target} : (loadCode h c f done).length ≤ Frame.stepLimit := by
  show 23 ≤ 100000
  decide

/-- The instructions that load a field, from the first write on. -/
theorem completes_load (hp : WovenProgram h classes p) (hno : NoHookMethods classes) {o : Nat}
    (hthis : locals[(0 : UInt16)]? = some (.object o)) (ho : IsStored p s o) :
    p.Completes (loadCode h c f 22) ⟨6, [], locals, s⟩ ⟨.ok none, s.load o ⟨c.name, f⟩⟩ := by
  have hfit : (loadCode h c f 22).length ≤ Frame.stepLimit := length_loadCode_le
  have hsize : o < s.heap.size := by
    obtain ⟨className, hcls, -⟩ := ho
    exact State.lt_size_of_className? hcls
  let flagged := s.write o (Names.loadedFlag f.name) (.int 1)
  have hflag : Point.exec? [.loadThis, .const (.int 1),
        .putField c.name (Names.loadedFlag f.name) Augmentation.boolean, .loadThis,
        .string c.name, .string f.name, .string f.type.typeName] ⟨6, [], locals, s⟩ =
      some ⟨13, [.str f.type.typeName, .str f.name, .str c.name, .object o], locals, flagged⟩ := by
    simp only [Instruction.loadThis, Instruction.string, Point.exec?, Point.frame,
      Frame.execute.eq_def, hthis, State.place?_object hsize, Frame.advance, if_true]
    rfl
  have hstored : IsStored p flagged o := by simpa [IsStored, flagged] using ho
  have hfetch : p.Gives ⟨.virtual, h.config.storageRoot, Names.fetchLastUpdate,
      Augmentation.fetchSignature h,
      [.object o, .str c.name, .str f.name, .str f.type.typeName]⟩ flagged _ :=
    hp.gives_fetch hno hstored c.name f.name f.type.typeName
  refine (Program.flows_block hfit ⟨_, rfl⟩ hflag).completes ?_
  refine (Program.flows_invoke [.object o, .str c.name, .str f.name, .str f.type.typeName] [] hfit
    rfl rfl hfetch).completes ?_
  let fetched := { flagged with fetches := s.fetches.push (State.fetchOf ⟨c.name, f⟩) }
  let v := s.persistedOf ⟨c.name, f⟩
  have hthis' : (locals.insert 1 v)[(0 : UInt16)]? = some (.object o) := by
    rw [Std.TreeMap.getElem?_insert, if_neg (by decide), hthis]
  have hv : (locals.insert 1 v)[(1 : UInt16)]? = some v := Std.TreeMap.getElem?_insert_self
  have hsize' : o < fetched.heap.size := by simpa [fetched, flagged] using hsize
  have hcast : Point.exec? [.checkCast f.type.typeName, .store .reference 1]
      ⟨14, [v], locals, fetched⟩ = some ⟨16, [], locals.insert 1 v, fetched⟩ := rfl
  refine (Program.flows_block hfit ⟨_, rfl⟩ hcast).completes ?_
  refine (Program.flows_block hfit ⟨_, rfl⟩
    (Point.exec?_writeThis .reference c.name f.name f.type hthis' hsize' hv)).completes ?_
  refine (Program.flows_block hfit ⟨_, rfl⟩ (Point.exec?_writeThis .reference c.name
    (Names.shadow f.name) f.type hthis' (by simpa using hsize') hv)).completes ?_
  exact Program.completes_done hfit (i := .return none) rfl rfl

/-- The method that loads a field, from its start. -/
theorem completes_loadCode (hp : WovenProgram h classes p) (hno : NoHookMethods classes)
    (hthis : locals[(0 : UInt16)]? = some this) (hflags : FlagsValid s this ⟨c.name, f⟩)
    (hstored : ∀ o, this = .object o → s.stored this ≠ .int 0 → IsStored p s o) :
    p.Completes (loadCode h c f 22) ⟨0, [], locals, s⟩
      ⟨.ok none, s.ensure this ⟨c.name, f⟩⟩ := by
  have hfit : (loadCode h c f 22).length ≤ Frame.stepLimit := length_loadCode_le
  obtain ⟨⟨x, hx⟩, y, hy⟩ := hflags
  have hreturn : p.Completes (loadCode h c f 22) ⟨22, [], locals, s⟩ ⟨.ok none, s⟩ :=
    Program.completes_done hfit (i := .return none) rfl rfl
  have hinStorage : Point.exec? [.loadThis,
      .getField h.config.storageRoot Names.inStorage Augmentation.boolean] ⟨0, [], locals, s⟩ =
        some ⟨2, [.int x], locals, s⟩ := by
    rw [← hx]
    exact Point.exec?_readThis _ _ _ hthis
  have hflag : Point.exec? [.loadThis,
      .getField c.name (Names.loadedFlag f.name) Augmentation.boolean] ⟨3, [], locals, s⟩ =
        some ⟨5, [.int y], locals, s⟩ := by
    rw [← hy]
    exact Point.exec?_readThis _ _ _ hthis
  refine (Program.flows_block hfit ⟨_, rfl⟩ hinStorage).completes ?_
  refine (Program.flows_branchIf hfit rfl (by decide)).completes ?_
  rw [(holds_compare_zero x).1]
  by_cases hx0 : x = 0
  · rw [State.ensure_of_fresh (by rw [hx, hx0])]
    simpa [hx0] using hreturn
  rw [decide_eq_false hx0]
  refine (Program.flows_block hfit ⟨_, rfl⟩ hflag).completes ?_
  refine (Program.flows_branchIf hfit rfl (by decide)).completes ?_
  rw [(holds_compare_zero y).2]
  by_cases hy0 : y = 0
  · have hne : s.stored this ≠ .int 0 := by
      rw [hx]
      exact fun he => hx0 (Value.int.inj he)
    obtain ⟨o, rfl, -⟩ := State.exists_object_of_stored hne
    rw [State.ensure_of_missing hne (by rw [hy, hy0]), decide_eq_false (not_not.2 hy0)]
    exact hp.completes_load hno hthis (hstored o rfl hne)
  · rw [State.ensure_of_loaded (by rw [hy]; exact fun he => hy0 (Value.int.inj he))]
    simpa [hy0] using hreturn

/-! ## The accessors -/

theorem codeOf?_of_has {c' : ClassDef} {name : String} {signature : Signature}
    {ds : List Directive} (hhas : Has c' (Augmentation.generated c name signature ds)) :
    ∃ code, Program.codeOf? c' name signature = some code ∧ assemble ds = .ok code := by
  obtain ⟨m, hm, hfound⟩ := hhas
  obtain ⟨hname, hsignature, code, hcode, hassemble⟩ := Augmentation.generated_eq_ok hm
  rw [hname, hsignature] at hfound
  exact ⟨code, by rw [Program.codeOf?, hfound, Option.bind_some, hcode], hassemble⟩

/-- The accessors of a lazy field are loaded. -/
theorem exists_accessors (hp : WovenProgram h classes p) (hf : IsLazyField h classes c f) :
    ∃ c', p.classes.get? c.name = some c' ∧
      Program.codeOf? c' (Names.ensureLoaded f.name) .void = some (loadCode h c f 22) ∧
      Program.codeOf? c' (Names.getter f.name) ⟨[], some f.type⟩ = some (getterCode c f) ∧
      Program.codeOf? c' (Names.setter f.name) ⟨[f.type], none⟩ = some (setterCode c f) := by
  obtain ⟨k, c', hk, hc', haccessors, -⟩ := hp.exists_members hf.mem hf.storage hf.concrete
  obtain ⟨hensure, hget, hset⟩ :=
    haccessors f (Hierarchy.lazyFields_of_classify hk ▸ hf.declared)
  obtain ⟨code₁, hcode₁, hassemble₁⟩ := codeOf?_of_has hensure
  obtain ⟨code₂, hcode₂, hassemble₂⟩ := codeOf?_of_has hget
  obtain ⟨code₃, hcode₃, hassemble₃⟩ := codeOf?_of_has hset
  obtain rfl := assemble_ensureLoadedBody hassemble₁
  obtain rfl := assemble_emitAll hassemble₂
  obtain rfl := assemble_emitAll hassemble₃
  exact ⟨c', hc', hcode₁, hcode₂, hcode₃⟩

theorem gives_ensureLoaded (hp : WovenProgram h classes p) (hno : NoHookMethods classes)
    (hf : IsLazyField h classes c f) (hflags : FlagsValid s this ⟨c.name, f⟩)
    (hstored : ∀ o, this = .object o → s.stored this ≠ .int 0 → IsStored p s o) :
    p.Gives ⟨.special, c.name, Names.ensureLoaded f.name, .void, [this]⟩ s
      ⟨.ok none, s.ensure this ⟨c.name, f⟩⟩ := by
  obtain ⟨c', hc', hcode, -⟩ := hp.exists_accessors hf
  obtain ⟨locals, hlay, hthis⟩ := exists_layOut_one this
  exact Program.gives_code (Program.resolve_code hc' hcode) hlay
    (hp.completes_loadCode hno hthis hflags hstored)

/-- An accessor begins with the load of its field. -/
theorem flows_ensureLoaded (hp : WovenProgram h classes p) (hno : NoHookMethods classes)
    (hf : IsLazyField h classes c f) (hflags : FlagsValid s this ⟨c.name, f⟩)
    (hstored : ∀ o, this = .object o → s.stored this ≠ .int 0 → IsStored p s o) {code : Code}
    (hfit : code.length ≤ Frame.stepLimit)
    (hplaced : Placed code 0 ([.loadThis] ++ [Augmentation.ensureLoadedCall c f])) {locals : Locals}
    (hthis : locals[(0 : UInt16)]? = some this) :
    p.Flows code ⟨0, [], locals, s⟩ ⟨2, [], locals, s.ensure this ⟨c.name, f⟩⟩ := by
  have hload : Point.exec? [.loadThis] ⟨0, [], locals, s⟩ = some ⟨1, [this], locals, s⟩ := by
    simp only [Instruction.loadThis, Point.exec?, Point.frame, Frame.execute.eq_def, hthis,
      Frame.advance, if_true]
  refine (Program.flows_block hfit hplaced.left hload).trans ?_
  exact Program.flows_invoke [this] [] hfit hplaced.right.head rfl
    (hp.gives_ensureLoaded hno hf hflags hstored)

/-- **Reading a lazy field** loads it if need be. -/
theorem gives_getter (hp : WovenProgram h classes p) (hno : NoHookMethods classes)
    (hf : IsLazyField h classes c f) (hflags : FlagsValid s this ⟨c.name, f⟩)
    (hstored : ∀ o, this = .object o → s.stored this ≠ .int 0 → IsStored p s o) {call : Call}
    (hcallee : p.callee call s = .ok (.code (getterCode c f))) (hargs : call.args = [this]) :
    p.Gives call s ⟨.ok (some ((s.ensure this ⟨c.name, f⟩).read this f.name f.type)),
      s.ensure this ⟨c.name, f⟩⟩ := by
  have hfit : (getterCode c f).length ≤ Frame.stepLimit := by
    show 5 ≤ 100000
    decide
  obtain ⟨locals, hlay, hthis⟩ := exists_layOut_one this
  refine Program.gives_code hcallee (hargs ▸ hlay) ?_
  refine (hp.flows_ensureLoaded hno hf hflags hstored hfit ⟨_, rfl⟩ hthis).completes ?_
  refine (Program.flows_block hfit ⟨_, rfl⟩
    (Point.exec?_readThis c.name f.name f.type hthis)).completes ?_
  exact Program.completes_done hfit (i := .return (some f.type.valueKind)) rfl rfl

/-- **Writing a lazy field** loads it before, if need be. -/
theorem gives_setter (hp : WovenProgram h classes p) (hno : NoHookMethods classes)
    (hf : IsLazyField h classes c f) (hflags : FlagsValid s this ⟨c.name, f⟩)
    (hstored : ∀ o, this = .object o → s.stored this ≠ .int 0 → IsStored p s o)
    (hsize : this.size = 1) {v : Value} {call : Call}
    (hcallee : p.callee call s = .ok (.code (setterCode c f))) (hargs : call.args = [this, v]) :
    p.Gives call s
      (match s.place? this with
      | some o => ⟨.ok none, (s.ensure this ⟨c.name, f⟩).write o f.name v⟩
      | none => ⟨.error .invalidReference, s.ensure this ⟨c.name, f⟩⟩) := by
  have hfit : (setterCode c f).length ≤ Frame.stepLimit := by
    show 6 ≤ 100000
    decide
  obtain ⟨locals, hlay, hthis, hv⟩ := exists_layOut_two hsize v
  have hloads : Point.exec? [.loadThis, .load f.type.valueKind 1]
      ⟨2, [], locals, s.ensure this ⟨c.name, f⟩⟩ =
        some ⟨4, [v, this], locals, s.ensure this ⟨c.name, f⟩⟩ := by
    simp only [Instruction.loadThis, Point.exec?, Point.frame, Frame.execute.eq_def, hthis, hv,
      Frame.advance, if_true]
  refine Program.gives_code hcallee (hargs ▸ hlay) ?_
  refine (hp.flows_ensureLoaded hno hf hflags hstored hfit ⟨_, rfl⟩ hthis).completes ?_
  refine (Program.flows_block hfit ⟨_, rfl⟩ hloads).completes ?_
  have hplace := s.place?_ensure this ⟨c.name, f⟩ this
  rcases hplaced : s.place? this with _ | o
  · rw [hplaced] at hplace
    refine Program.completes_fault hfit (i := .putField c.name f.name f.type) rfl ?_
    simp only [Point.frame, Frame.execute.eq_def, hplace]
  · rw [hplaced] at hplace
    have hput : Point.exec? [.putField c.name f.name f.type]
        ⟨4, [v, this], locals, s.ensure this ⟨c.name, f⟩⟩ =
          some ⟨5, [], locals, (s.ensure this ⟨c.name, f⟩).write o f.name v⟩ := by
      simp only [Point.exec?, Point.frame, Frame.execute.eq_def, hplace, Frame.advance, if_true]
    refine (Program.flows_block hfit ⟨_, rfl⟩ hput).completes ?_
    exact Program.completes_done hfit (i := .return none) rfl rfl

end WovenProgram

end StorageWeave
