import StorageWeave.Proofs.Classwise
import StorageWeave.Proofs.Overloads
import StorageWeave.Proofs.Rereading

/-!
# Weaving a woven archive

A woven archive can be woven again. Its classes have the headers and the persistent fields of those
that were woven, since all that a storage class is given is transient (`Reread.resembles`), so its
hierarchy answers as before which classes are storage classes and what their eager fields are
(`Hierarchy.Resembles`). The second pass gives a storage class the same members once more, and meets
the deserializing constructor of the first (`Reread.not_woven`).
-/

namespace StorageWeave.Weaving

open Bytecode

/-! ## What members are added to -/

/-- A method without annotations, and with code whose branches stay in it. -/
structure Bare (m : MethodDef) : Prop where
  annotations : m.annotations = []
  code : ∃ code, m.code = some code ∧ Code.validate code = .ok ()

/-- `c'` has the header and the members of `c`, other fields that are not persistent, and other
methods that `c` does not have. -/
structure Extends (c c' : ClassDef) : Prop where
  name : c'.name = c.name
  superclass : c'.superclass = c.superclass
  interfaces : c'.interfaces = c.interfaces
  access : c'.access = c.access
  fields : ∃ fs, c'.fields = c.fields ++ fs ∧ ∀ f ∈ fs, f.isPersistent = false
  methods : ∃ ms, c'.methods = c.methods ++ ms ∧
    ∀ m ∈ ms, Bare m ∧ m.key ∉ c.methods.map MethodDef.key

theorem Extends.refl (c : ClassDef) : Extends c c :=
  ⟨rfl, rfl, rfl, rfl, ⟨[], by simp, by simp⟩, ⟨[], by simp, by simp⟩⟩

namespace Augmentation

variable {h : Hierarchy} {c : ClassDef} {k : Classification} {d d' : Draft}

theorem isPersistent_generated (name : String) (type : FieldType) :
    FieldDef.isPersistent ⟨name, type, .generated⟩ = false := by
  have : Access.generated.contains .transient = true := by decide
  simp [FieldDef.isPersistent, FieldDef.isTransient, this]

theorem not_isPersistent_of_mem_addedFields {f : FieldDef} (hf : f ∈ addedFields k) :
    f.isPersistent = false := by
  rcases List.mem_append.1 hf with hf | hf
  · obtain ⟨f, -, rfl⟩ := List.mem_map.1 hf
    exact isPersistent_generated _ _
  · obtain ⟨f, -, rfl⟩ := List.mem_map.1 hf
    exact isPersistent_generated _ _

theorem validate_of_assemble {ds : List Directive} {code : Code} (hcode : assemble ds = .ok code) :
    Code.validate code = .ok () := by
  obtain ⟨a, -, hcode⟩ := bind_eq_ok.1 hcode
  obtain ⟨out, -, hcode⟩ := bind_eq_ok.1 hcode
  obtain ⟨⟨⟩, hvalid, hcode⟩ := bind_eq_ok.1 hcode
  cases hcode
  exact hvalid

theorem bare_generated {name : String} {signature : Signature} {ds : List Directive} {m : MethodDef}
    (hm : generated c name signature ds = .ok m) : Bare m := by
  obtain ⟨code, hcode, hm⟩ := bind_eq_ok.1 hm
  cases hm
  exact ⟨rfl, code, rfl, validate_of_assemble (assemble_of_body hcode)⟩

theorem bare_constructor {m : MethodDef} (hm : constructor h c k = .ok m) : Bare m := by
  obtain ⟨s, -, hm⟩ := bind_eq_ok.1 hm
  obtain ⟨⟨inherited, slot⟩, -, hm⟩ := bind_eq_ok.1 hm
  obtain ⟨⟨own, last⟩, -, hm⟩ := bind_eq_ok.1 hm
  obtain ⟨code, hcode, hm⟩ := bind_eq_ok.1 hm
  cases hm
  exact ⟨rfl, code, rfl, validate_of_assemble (assemble_of_body hcode)⟩

theorem bare_of_mem_members {ms : List MethodDef} {m : MethodDef} (hms : members h c k = .ok ms)
    (hm : m ∈ ms) : Bare m := by
  rcases (mem_members hms).1 hm with ⟨f, -, hm | hm | hm⟩ | hm | hm
  · exact bare_generated hm
  · exact bare_generated hm
  · exact bare_generated hm
  · exact bare_constructor hm
  · obtain ⟨s, -, hm⟩ := bind_eq_ok.1 hm
    exact bare_generated hm

/-- **The members of a storage class** are transient fields and methods of other names or
signatures. -/
theorem addMembers_extends (hadd : addMembers h c k d = .ok d') :
    Extends d.toClass d'.toClass := by
  obtain ⟨added, hadded, -, hno, hd'⟩ := addMembers_eq_ok hadd
  rw [hd']
  refine ⟨rfl, rfl, rfl, rfl, ⟨_, rfl, fun f => not_isPersistent_of_mem_addedFields⟩, _, rfl, ?_⟩
  exact fun m hm => ⟨bare_of_mem_members hadded hm,
    (Clashes.not_iff.1 hno).2 m.key (List.mem_map_of_mem hm)⟩

end Augmentation

/-- **A woven class** has its woven methods, and is extended beyond them. -/
theorem ClassWeaver.exists_extends {h : Hierarchy} {c : ClassDef} {wc : WovenClass}
    (hw : ClassWeaver.weave h (.exact h) c = .ok wc) :
    ∃ ms, List.Forall₂ (fun m wm => MethodWeaver.weave h (.exact h) c m = .ok wm) c.methods ms ∧
      Extends { c with methods := ms.map (·.method) } wc.result := by
  obtain ⟨ms, hms, hresult⟩ := ClassWeaver.exists_methods hw
  refine ⟨ms, hms, ?_⟩
  split at hresult
  · obtain ⟨k, d, -, hresult, hd⟩ := hresult
    rw [hresult, ← Draft.toClass_ofClass { c with methods := ms.map (·.method) }]
    exact Augmentation.addMembers_extends hd
  · rw [hresult]
    exact .refl _

/-- **The deserializing constructor** of a storage class is no woven method of it. -/
theorem ClassWeaver.exists_constructor {h : Hierarchy} {c : ClassDef} {wc : WovenClass}
    (hw : ClassWeaver.weave h (.exact h) c = .ok wc) (hclass : c.isInterface = false)
    (hstorage : h.isStorage c.name = true) :
    ∃ k m ms, h.classify c = .ok k ∧ Augmentation.constructor h c k = .ok m ∧
      wc.result.method? m.name m.signature = some m ∧
      List.Forall₂ (fun m wm => MethodWeaver.weave h (.exact h) c m = .ok wm) c.methods ms ∧
      m.key ∉ (ms.map (·.method)).map MethodDef.key := by
  obtain ⟨ms, hms, hresult⟩ := ClassWeaver.exists_methods hw
  rw [if_pos ⟨hclass, hstorage⟩] at hresult
  obtain ⟨k, d, hk, hresult, hd⟩ := hresult
  obtain ⟨-, -, ⟨m, hm, hfound⟩, -⟩ := Augmentation.addMembers_spec hd
  obtain ⟨added, hadded, -, hno, -⟩ := Augmentation.addMembers_eq_ok hd
  rw [Draft.toClass_ofClass] at hno
  refine ⟨k, m, ms, hk, hm, hresult ▸ hfound, hms, (Clashes.not_iff.1 hno).2 m.key ?_⟩
  exact List.mem_map_of_mem ((Augmentation.mem_members hadded).2 (.inr (.inl hm)))

/-! ## Reading stored classes -/

theorem forall₂_of_mapM_eq_some {α β : Type} {f : α → Option β} {as : List α} {bs : List β}
    (h : as.mapM f = some bs) : List.Forall₂ (fun a b => f a = some b) as bs := by
  induction as generalizing bs with
  | nil =>
    cases h
    exact .nil
  | cons a as ih =>
    rw [List.mapM_cons] at h
    obtain ⟨b, hb, h⟩ := Option.bind_eq_some_iff.1 h
    obtain ⟨bs, hbs, h⟩ := Option.bind_eq_some_iff.1 h
    cases h
    exact .cons hb (ih hbs)

theorem reread?_method {m m' : MethodDef} (hm : m.reread? = some m') :
    ∃ code, m' = { m with code } ∧
      Option.Rel (List.Forall₂ fun i i' => i.reread? = some i') m.code code := by
  unfold MethodDef.reread? at hm
  rcases hcode : m.code with _ | code
  · simp only [hcode] at hm
    cases hm
    exact ⟨none, by rw [← hcode], .none⟩
  · simp only [hcode] at hm
    obtain ⟨code', hcode', rfl⟩ := Option.map_eq_some_iff.1 hm
    exact ⟨some code', rfl, .some (forall₂_of_mapM_eq_some hcode')⟩

theorem reread?_class {c c' : ClassDef} (hc : c.reread? = some c') :
    ∃ methods, c' = { c with methods } ∧
      List.Forall₂ (fun m m' => m.reread? = some m') c.methods methods := by
  obtain ⟨methods, hmethods, rfl⟩ := Option.map_eq_some_iff.1 hc
  exact ⟨methods, rfl, forall₂_of_mapM_eq_some hmethods⟩

/-- Classes find their methods alike if these have the same names and signatures in order. -/
theorem rel_method? {R : MethodDef → MethodDef → Prop} {c c' : ClassDef}
    (hkey : ∀ m m', R m m' → m'.key = m.key) (hmethods : List.Forall₂ R c.methods c'.methods)
    (name : String) (signature : Signature) :
    Option.Rel R (c.method? name signature) (c'.method? name signature) := by
  refine rel_find? (fun m _ m' hm => ?_) hmethods
  obtain ⟨hname, hsignature⟩ := Prod.ext_iff.1 (hkey m m' hm)
  simp only [MethodDef.key] at hname hsignature
  rw [MethodDef.isNamed, MethodDef.isNamed, hname, hsignature]

/-- A method is found in a stored class as in the class, with its code as it is stored. -/
theorem exists_method?_of_reread? {c c' : ClassDef} (hc : c.reread? = some c') {name : String}
    {signature : Signature} {m : MethodDef} (hm : c.method? name signature = some m) :
    ∃ code, c'.method? name signature = some { m with code } := by
  obtain ⟨methods, rfl, hmethods⟩ := reread?_class hc
  have hkey (m m' : MethodDef) (hm : m.reread? = some m') : m'.key = m.key := by
    obtain ⟨code, rfl, -⟩ := reread?_method hm
    rfl
  have hrel : Option.Rel (fun m m' => m.reread? = some m') (c.method? name signature)
      (({ c with methods } : ClassDef).method? name signature) :=
    rel_method? hkey hmethods name signature
  rw [hm] at hrel
  generalize ({ c with methods } : ClassDef).method? name signature = found at hrel ⊢
  cases hrel with
  | some hn =>
    obtain ⟨code, rfl, -⟩ := reread?_method hn
    exact ⟨code, rfl⟩

/-- `c'` is read from the stored form of what weaving makes of `c`. -/
def Reread (h : Hierarchy) (c c' : ClassDef) : Prop :=
  ∃ wc, ClassWeaver.weave h (.exact h) c = .ok wc ∧ wc.result.reread? = some c'

/-- `m'` is read from the stored form of what weaving makes of the method `m` of `c`. -/
def RereadMethod (h : Hierarchy) (c : ClassDef) (m m' : MethodDef) : Prop :=
  ∃ w, MethodWeaver.weave h (.exact h) c m = .ok w ∧ w.method.reread? = some m'

/-- `c'` has the header of `c`, and the same persistent fields. -/
structure Resembles (c c' : ClassDef) : Prop where
  name : c'.name = c.name
  superclass : c'.superclass = c.superclass
  interfaces : c'.interfaces = c.interfaces
  access : c'.access = c.access
  persistent : c'.fields.filter FieldDef.isPersistent = c.fields.filter FieldDef.isPersistent

theorem Resembles.refl (c : ClassDef) : Resembles c c := ⟨rfl, rfl, rfl, rfl, rfl⟩

/-- The persistent fields of some types are the same. -/
theorem Resembles.filter_eq {c c' : ClassDef} (hc : Resembles c c') (p : FieldType → Bool) :
    (c'.fields.filter fun f => f.isPersistent && p f.type) =
      c.fields.filter fun f => f.isPersistent && p f.type := by
  have hfields := congrArg (List.filter fun f => p f.type) hc.persistent
  simpa only [List.filter_filter, Bool.and_comm] using hfields

/-- **Weaving and storing** a class keep its header and its persistent fields. -/
theorem Reread.resembles {h : Hierarchy} {c c' : ClassDef} (hc : Reread h c c') :
    Resembles c c' := by
  obtain ⟨wc, hw, hread⟩ := hc
  obtain ⟨ms, -, hextends⟩ := ClassWeaver.exists_extends hw
  obtain ⟨methods, rfl, -⟩ := reread?_class hread
  obtain ⟨fs, hfields, hfs⟩ := hextends.fields
  refine ⟨hextends.name, hextends.superclass, hextends.interfaces, hextends.access, ?_⟩
  have hnone : fs.filter FieldDef.isPersistent = [] := by simpa [List.filter_eq_nil_iff] using hfs
  simp [hfields, hnone]

/-! ## Hierarchies that answer alike -/

/-- The classes of `h'` have the headers and the persistent fields of those of `h`. -/
structure Hierarchy.Resembles (h h' : Hierarchy) : Prop where
  config : h'.config = h.config
  size : h'.index.size = h.index.size
  classes : ∀ name, Option.Rel Weaving.Resembles (h.index.get? name) (h'.index.get? name)

namespace Hierarchy.Resembles

variable {h h' : Hierarchy} {c c' : ClassDef}

theorem superclassOf_eq (hr : h.Resembles h') (name : String) :
    h'.superclassOf name = h.superclassOf name := by
  have hrel := hr.classes name
  unfold superclassOf
  generalize h.index.get? name = x at hrel
  generalize h'.index.get? name = y at hrel
  cases hrel with
  | none => simp only [hr.config]
  | some hc => exact hc.superclass

theorem descendsFrom_eq (hr : h.Resembles h') (root name : String) :
    h'.descendsFrom root name = h.descendsFrom root name := by
  have hreaches (fuel : Nat) (name : String) :
      h'.reaches root fuel name = h.reaches root fuel name := by
    induction fuel generalizing name with
    | zero => rfl
    | succ fuel ih => simp only [reaches, hr.superclassOf_eq, ih]
  rw [descendsFrom, descendsFrom, walkBound, walkBound, hr.size, hreaches]

theorem isStorage_eq (hr : h.Resembles h') (name : String) :
    h'.isStorage name = h.isStorage name := by
  rw [isStorage, isStorage, hr.config, hr.descendsFrom_eq]

theorem isLazy_eq (hr : h.Resembles h') (type : FieldType) : h'.isLazy type = h.isLazy type := by
  cases type with
  | primitive kind => rfl
  | reference name => simp only [isLazy, hr.config]

theorem eagerFields_eq (hr : h.Resembles h') (hc : Weaving.Resembles c c') :
    h'.eagerFields c' = h.eagerFields c := by
  simp only [eagerFields, hr.isLazy_eq, hc.filter_eq fun type => !h.isLazy type]

theorem lazyFields_eq (hr : h.Resembles h') (hc : Weaving.Resembles c c') :
    h'.lazyFields c' = h.lazyFields c := by
  simp only [lazyFields, hr.isLazy_eq, hc.filter_eq h.isLazy]

theorem eagerLevelsFrom_eq (hr : h.Resembles h') (hc : Weaving.Resembles c c') (bottom : String)
    (fuel : Nat) (visited : List String) (levels : List (List FieldDef)) :
    h'.eagerLevelsFrom bottom fuel visited levels c' =
      h.eagerLevelsFrom bottom fuel visited levels c := by
  induction fuel generalizing c c' visited levels with
  | zero => simp only [eagerLevelsFrom, hc.name]
  | succ fuel ih =>
    simp only [eagerLevelsFrom, hc.name, hc.superclass, hr.eagerFields_eq hc, hr.config]
    split
    · rfl
    split
    · rfl
    next s _ =>
    split
    · rfl
    have hrel := hr.classes s
    generalize h.index.get? s = x at hrel
    generalize h'.index.get? s = y at hrel
    cases hrel with
    | none => rfl
    | some hparent => exact ih hparent _ _

/-- **Storage classes** are classified as before. -/
theorem classify_eq (hr : h.Resembles h') (hc : Weaving.Resembles c c') :
    h'.classify c' = h.classify c := by
  rw [classify, classify, hr.lazyFields_eq hc, walkBound, walkBound, hr.size, hc.name,
    hr.eagerLevelsFrom_eq hc]

theorem parent_iff (hr : h.Resembles h') {x y : String} : h'.Parent x y ↔ h.Parent x y := by
  have hrel := hr.classes x
  unfold Parent
  generalize h.index.get? x = c at hrel
  generalize h'.index.get? x = c' at hrel
  cases hrel with
  | none => simp
  | some hc => simp [hc.superclass, hc.interfaces]

theorem acyclic (hr : h.Resembles h') (hac : h.Acyclic) : h'.Acyclic := by
  have hparent : h'.Parent = h.Parent := by
    funext x y
    exact propext hr.parent_iff
  rwa [Acyclic, hparent]

end Hierarchy.Resembles

/-! ## The index of a woven archive -/

theorem forall₂_filterMap {α β γ : Type} {R : α → β → Prop} {f : β → Option γ} {as : List α}
    {bs : List β} (h : List.Forall₂ R as bs) (hf : ∀ b ∈ bs, ∃ c, f b = some c) :
    List.Forall₂ (fun a c => ∃ b, R a b ∧ f b = some c) as (bs.filterMap f) := by
  induction h with
  | nil => exact .nil
  | @cons a b as bs hab _ ih =>
    obtain ⟨⟨c, hc⟩, hf⟩ := List.forall_mem_cons.1 hf
    rw [List.filterMap_cons, hc]
    exact .cons ⟨b, hab, hc⟩ (ih hf)

/-- An archive that is woven, its index, and the index of the woven archive. -/
structure Reindexed (input : Archive) (dependencies : List Archive) (config : Config)
    (w : WovenArchive) (built built' : ClassIndex.Building) : Prop where
  woven : weaveArchive input dependencies config = .ok w
  before : ClassIndex.build (input :: dependencies) = .ok built
  after : ClassIndex.build (w.result :: dependencies) = .ok built'

namespace Reindexed

variable {input : Archive} {dependencies : List Archive} {config : Config} {w : WovenArchive}
  {built built' : ClassIndex.Building}

/-- The classes of the woven archive are those that weaving makes, as they are stored. -/
theorem classes (hr : Reindexed input dependencies config w built built') :
    List.Forall₂ (Reread ⟨built.index, config⟩) input.classes w.result.classes := by
  obtain ⟨_, hbuilt, hwoven⟩ := weaveArchive_exact hr.woven
  cases hr.before.symm.trans hbuilt
  have hdata := weaveArchive_data hr.woven
  have hclasses : w.result.classes = w.report.classes.filterMap (·.result.reread?) := by
    have hread : w.result.classes = (w.result.classEntries.map (·.data)).filterMap
        ClassDef.ofBytes? := by
      rw [List.filterMap_map]
      rfl
    rw [hread, hdata, List.filterMap_map]
    exact List.filterMap_congr fun wc _ => ClassDef.ofBytes?_toBytes wc.result
  rw [hclasses]
  refine forall₂_filterMap hwoven fun wc hwc => ?_
  obtain ⟨e, he, hdata⟩ := List.mem_map.1 (hdata ▸ List.mem_map_of_mem hwc)
  obtain ⟨c, hc⟩ := ClassIndex.readable_of_build hr.after List.mem_cons_self he
  exact ⟨c, by rw [← ClassDef.ofBytes?_toBytes, ← hdata, hc]⟩

/-- A name stands for a class of the archive, before and after, or for one of a dependency. -/
theorem exists_get? (hr : Reindexed input dependencies config w built built') (name : String) :
    ∃ found found' other, Option.Rel (Reread ⟨built.index, config⟩) found found' ∧
      input.classes.find? (fun c => c.name = name) = found ∧
      w.result.classes.find? (fun c => c.name = name) = found' ∧
      built.index.get? name = found.or other ∧ built'.index.get? name = found'.or other := by
  refine ⟨_, _, (dependencies.flatMap Archive.classes).find? fun c => c.name = name,
    rel_find? (fun c _ c' hc => ?_) hr.classes, rfl, rfl, ?_, ?_⟩
  · rw [hc.resembles.name]
  · rw [ClassIndex.get?_build hr.before, List.flatMap_cons, List.find?_append]
  · rw [ClassIndex.get?_build hr.after, List.flatMap_cons, List.find?_append]

/-- **The hierarchy** of a woven archive answers as the one before. -/
theorem resembles (hr : Reindexed input dependencies config w built built') :
    Hierarchy.Resembles ⟨built.index, config⟩ ⟨built'.index, config⟩ := by
  have hclasses (name : String) :
      Option.Rel Resembles (built.index.get? name) (built'.index.get? name) := by
    obtain ⟨found, found', other, hrel, -, -, hget, hget'⟩ := hr.exists_get? name
    rw [hget, hget']
    cases hrel with
    | some hc => exact .some hc.resembles
    | none =>
      cases other with
      | none => exact .none
      | some c => exact .some (.refl c)
  refine ⟨rfl, ?_, hclasses⟩
  refine (ClassIndex.classNames_eq (ClassIndex.sourced_of_build hr.after).1.nodup
    (ClassIndex.sourced_of_build hr.before).1.nodup fun name => ?_).1
  have hrel := hclasses name
  generalize built.index.get? name = x at hrel
  generalize built'.index.get? name = y at hrel
  cases hrel <;> rfl

/-- A class that is indexed before is read from the woven archive and indexed after. -/
theorem exists_reread (hr : Reindexed input dependencies config w built built')
    (hdigests : ClassIndex.DigestsDiffer input.classEntries) {c : ClassDef}
    (hc : c ∈ input.classes) :
    ∃ c' ∈ w.result.classes, Reread ⟨built.index, config⟩ c c' ∧
      built'.index.get? c'.name = some c' := by
  obtain ⟨found, found', other, hrel, hfound, hfound', hget, hget'⟩ := hr.exists_get? c.name
  have hindexed := ClassIndex.get?_of_mem_classes hr.before hdigests hc
  cases hrel with
  | none => simpa using List.find?_eq_none.1 hfound c hc
  | @some d c' hd =>
    rw [hindexed] at hget
    cases hget
    refine ⟨c', List.mem_of_find?_eq_some hfound', hd, ?_⟩
    rw [hd.resembles.name, hget']
    rfl

end Reindexed

/-! ## Storage classes -/

/-- The role that the annotations of a method itself give it. -/
def Config.declaredRole (config : Config) (m : MethodDef) : Role :=
  if (m.annotation? config.payableAnnotation).isSome then .payableEntry
  else if (m.annotation? config.entryAnnotation).isSome then .entry
  else .plain

/-- Constructors inherit no role: the first one of a signature declares it. -/
theorem role_constructor {h : Hierarchy} {c : ClassDef} {m : MethodDef} {name : String}
    {signature : Signature} (hc : h.index.get? c.name = some c)
    (hm : c.method? name signature = some m) (hname : name = constructorName) :
    (Oracle.exact h).role h.config ⟨c.name, name, signature⟩ = .ok (h.config.declaredRole m) := by
  have hconstructor : m.isConstructor = true := by
    simp [MethodDef.isConstructor, (ClassDef.mem_of_method? hm).2.1, hname]
  have hkind (kind : String) : h.annotation kind ⟨c.name, name, signature⟩ =
      .ok (m.annotation? kind) := by
    rw [Hierarchy.annotation, Hierarchy.pathBound, Hierarchy.annotationFrom,
      Hierarchy.annotationAt, hc]
    simp only [hm, hconstructor, Bool.true_or, if_true]
    cases m.annotation? kind <;> rfl
  have hexact (kind : String) : Oracle.annotation (.exact h) kind ⟨c.name, name, signature⟩ =
      .ok (m.annotation? kind) := hkind kind
  rw [Oracle.role, hexact, hexact, Config.declaredRole]
  cases m.annotation? h.config.payableAnnotation <;>
    cases m.annotation? h.config.entryAnnotation <;> rfl

theorem Config.declaredRole_eq_plain (config : Config) {m : MethodDef}
    (hm : m.annotations = []) : config.declaredRole m = .plain := by
  simp [declaredRole, MethodDef.annotation?, hm]

/-- **A woven storage class cannot be woven again**: its deserializing constructor keeps its
signature, and stands in the way of the next one. -/
theorem Reread.not_woven {h h' : Hierarchy} {c c' : ClassDef} {wc : WovenClass}
    (hc : Reread h c c') (hr : h.Resembles h') (hclass : c.isInterface = false)
    (hstorage : h.isStorage c.name = true) (hindexed : h'.index.get? c'.name = some c') :
    ClassWeaver.weave h' (.exact h') c' ≠ .ok wc := by
  intro hw'
  have hres := hc.resembles
  obtain ⟨wc₀, hw, hread⟩ := hc
  obtain ⟨k, m, ms, hk, hm, hfound, -, -⟩ := ClassWeaver.exists_constructor hw hclass hstorage
  obtain ⟨k', m', ms', hk', hm', -, hms', hfresh⟩ := ClassWeaver.exists_constructor hw'
    (by rw [ClassDef.isInterface, hres.access]; exact hclass)
    (by rw [hr.isStorage_eq, hres.name]; exact hstorage)
  rw [hr.classify_eq hres, hk] at hk'
  cases hk'
  obtain ⟨hname, hsignature, -⟩ := Augmentation.constructor_eq_ok hm
  obtain ⟨hname', hsignature', -⟩ := Augmentation.constructor_eq_ok hm'
  have hkey : m'.key = m.key := by
    rw [MethodDef.key, MethodDef.key, hname, hname', hsignature, hsignature',
      Augmentation.constructorParams, Augmentation.constructorParams, hr.config]
  obtain ⟨code, hfound'⟩ := exists_method?_of_reread? hread hfound
  obtain ⟨w, hw, hweave⟩ := exists_of_forall₂_right hms'.flip (ClassDef.mem_of_method? hfound').1
  obtain ⟨role, hrole, hwname, hwsignature, -⟩ := MethodWeaver.exists_role hweave
  have hannotations : ({ m with code } : MethodDef).annotations = [] :=
    (Augmentation.bare_constructor hm).annotations
  have hplain := role_constructor hindexed hfound' hname
  rw [h'.config.declaredRole_eq_plain hannotations] at hplain
  cases hplain.symm.trans hrole
  have hwkey : w.method.key = m'.key := by
    rw [hkey, MethodDef.key, hwname, hwsignature]
    rfl
  exact hfresh (hwkey ▸ List.mem_map_of_mem (List.mem_map_of_mem hw))

end StorageWeave.Weaving
