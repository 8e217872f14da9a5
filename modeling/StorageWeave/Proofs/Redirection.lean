import StorageWeave.Proofs.Agreement

/-!
# Redirected accesses

A woven program beside the plain one (`WovenPair`). The plain program names no member that weaving
adds, and its accesses have the types of the fields they find (`Admissible`). Then an access is
redirected exactly if it is to a lazy field of its receiver, and every call finds in the woven
program what it finds in the plain one, with its accesses redirected (`WovenPair.callee_rel`).
-/

namespace StorageWeave

open Bytecode Weaving Machine

theorem rel_find? {α β : Type} {R : α → β → Prop} {P : α → Bool} {Q : β → Bool} {as : List α}
    {bs : List β} (hPQ : ∀ a ∈ as, ∀ b, R a b → P a = Q b) (h : List.Forall₂ R as bs) :
    Option.Rel R (as.find? P) (bs.find? Q) := by
  induction h with
  | nil => exact .none
  | @cons a b as bs hab _ ih =>
    rw [List.find?_cons, List.find?_cons, hPQ a List.mem_cons_self b hab]
    split
    · exact .some hab
    · exact ih fun a' ha' => hPQ a' (List.mem_cons_of_mem a ha')

theorem rel_getElem? {α β : Type} {R : α → β → Prop} {as : List α} {bs : List β}
    (h : List.Forall₂ R as bs) (n : Nat) : Option.Rel R as[n]? bs[n]? := by
  induction h generalizing n with
  | nil => exact .none
  | cons hab _ ih =>
    cases n with
    | zero => exact .some hab
    | succ n => exact ih n

namespace Weaving.Hierarchy

variable {h : Hierarchy}

/-- Without a method that has the role of an entry, no method is marked as one. -/
theorem noEntries_of_role
    (hplain : ∀ c, h.index.get? c.name = some c → ∀ m ∈ c.methods,
      (Oracle.exact h).role h.config ⟨c.name, m.name, m.signature⟩ = .ok .plain) :
    h.NoEntries := by
  have hannotation {kind : String} {c : ClassDef} {m : MethodDef} {a : Annotation}
      (hc : h.index.get? c.name = some c) (hm : c.method? m.name m.signature = some m)
      (ha : m.annotation? kind = some a) :
      h.annotation kind ⟨c.name, m.name, m.signature⟩ = .ok (some a) := by
    simp only [pathBound, annotation, annotationFrom, annotationAt, hc, hm, ha]
    rfl
  refine ⟨?_, ?_⟩
  · rintro ⟨c, m, hc, hm, ha⟩
    obtain ⟨a, ha⟩ := Option.isSome_iff_exists.1 ha
    have hrole := hplain c hc m (ClassDef.mem_of_method? hm).1
    simp only [Oracle.role, Oracle.exact, hannotation hc hm ha] at hrole
    cases hrole
  · rintro ⟨c, m, hc, hm, ha⟩
    obtain ⟨a, ha⟩ := Option.isSome_iff_exists.1 ha
    have hrole := hplain c hc m (ClassDef.mem_of_method? hm).1
    simp only [Oracle.role, Oracle.exact, hannotation hc hm ha] at hrole
    obtain ⟨payable, -, hrole⟩ := bind_eq_ok.1 hrole
    split at hrole <;> cases hrole

/-! ### The search for a field -/

section Search

variable {name x y : String} {r : ResolvedField}

/-- The class where the search for a field goes on after another one. -/
def beyond (h : Hierarchy) (name x : String) : Option String :=
  (h.index.get? x).bind fun c => if c.field? name = none then c.superclass else none

theorem beyond_eq_some_iff :
    h.beyond name x = some y ↔
      ∃ c, h.index.get? x = some c ∧ c.field? name = none ∧ c.superclass = some y := by
  simp [beyond, Option.bind_eq_some_iff]

theorem climb_beyond_succ {n : Nat} :
    climb (h.beyond name) (n + 1) x = some y ↔ ∃ c s, h.index.get? x = some c ∧
      c.field? name = none ∧ c.superclass = some s ∧ climb (h.beyond name) n s = some y := by
  simp only [climb, Option.bind_eq_some_iff, beyond_eq_some_iff]
  constructor
  · rintro ⟨s, ⟨c, hc, hf, hs⟩, hn⟩
    exact ⟨c, s, hc, hf, hs, hn⟩
  · rintro ⟨c, s, hc, hf, hs, hn⟩
    exact ⟨s, ⟨c, hc, hf, hs⟩, hn⟩

/-- The search goes on until a class declares the field. -/
theorem resolveFieldFrom_eq_some_iff {fuel : Nat} :
    h.resolveFieldFrom name fuel x = some r ↔
      ∃ n < fuel, climb (h.beyond name) n x = some r.declaring ∧
        ∃ c, h.index.get? r.declaring = some c ∧ c.field? name = some r.field := by
  induction fuel generalizing x with
  | zero => simp [resolveFieldFrom]
  | succ fuel ih =>
    rw [resolveFieldFrom]
    constructor
    · intro hr
      rcases hc : h.index.get? x with _ | c
      · rw [hc] at hr
        cases hr
      rw [hc] at hr
      rcases hf : c.field? name with _ | f
      · simp only [hf] at hr
        obtain ⟨s, hs, hr⟩ := Option.bind_eq_some_iff.1 hr
        obtain ⟨n, hn, hclimb, hdeclared⟩ := ih.1 hr
        exact ⟨n + 1, by omega, climb_beyond_succ.2 ⟨c, s, hc, hf, hs, hclimb⟩, hdeclared⟩
      · simp only [hf] at hr
        cases hr
        exact ⟨0, Nat.succ_pos _, rfl, c, hc, hf⟩
    · rintro ⟨_ | n, hn, hclimb, c, hc, hf⟩
      · cases hclimb
        simp only [hc, hf]
      · obtain ⟨d, s, hd, hnone, hs, hclimb⟩ := climb_beyond_succ.1 hclimb
        simp only [hd, hnone, hs, Option.bind_some]
        exact ih.2 ⟨n, by omega, hclimb, c, hc, hf⟩

theorem climb_of_beyond {n : Nat} (hn : climb (h.beyond name) n x = some y) :
    climb h.superclassOf n x = some y := by
  induction n generalizing x with
  | zero => exact hn
  | succ n ih =>
    obtain ⟨c, s, hc, -, hs, hn⟩ := climb_beyond_succ.1 hn
    rw [climb_succ_of_next ((superclassOf_of_get? hc).trans hs), ih hn]

end Search

/-- A field that an access finds is declared by a class above. -/
theorem resolveField_eq_some {owner name : String} {r : ResolvedField}
    (hr : h.resolveField owner name = some r) :
    ∃ d, h.index.get? r.declaring = some d ∧ d.field? name = some r.field ∧
      h.descendsFrom r.declaring owner = true := by
  obtain ⟨n, -, hclimb, d, hd, hf⟩ := resolveFieldFrom_eq_some_iff.1 hr
  exact ⟨d, hd, hf, descendsFrom_iff.2 ⟨n, climb_of_beyond hclimb⟩⟩

/-- From a storage root that is not indexed, no other class is reached. -/
theorem eq_of_climb_storageRoot (hroot : h.index.get? h.config.storageRoot = none) {n : Nat}
    {a : String} (hn : climb h.superclassOf n h.config.storageRoot = some a) :
    a = h.config.storageRoot := by
  induction n with
  | zero => exact (Option.some.inj hn).symm
  | succ n ih =>
    rw [climb] at hn
    obtain ⟨s, hs, hn⟩ := Option.bind_eq_some_iff.1 hn
    simp only [superclassOf, hroot] at hs
    split at hs
    · cases hs
      exact ih hn
    · cases hs

/-- What stands above a storage class is the storage root, or a storage class itself. -/
theorem isStorage_of_descendsFrom {a c : String}
    (hroot : h.index.get? h.config.storageRoot = none) (hc : h.isStorage c = true)
    (ha : h.descendsFrom a c = true) : h.isStorage a = true := by
  rcases descendsFrom_or hc ha with hbelow | habove
  · exact hbelow
  · obtain ⟨n, hn⟩ := descendsFrom_iff.1 habove
    rw [eq_of_climb_storageRoot hroot hn]
    exact descendsFrom_self _

end Weaving.Hierarchy

/-- Why an access is kept or redirected. -/
theorem Weaving.MethodWeaver.accessorOwner_eq_ok {h : Hierarchy} {c : ClassDef}
    {owner name : String} {type : FieldType} {x : Option String}
    (hx : accessorOwner h (.exact h) c owner name type = .ok x) :
    (x = none ∧ (h.isLazy type = false ∨ h.isStorage owner = false ∨
      h.resolveField owner name = none)) ∨
    (h.isLazy type = true ∧ h.isStorage owner = true ∧ ∃ r, h.resolveField owner name = some r ∧
      x = if r.field.isPersistent then some r.declaring else none) := by
  unfold accessorOwner at hx
  simp only [Oracle.exact] at hx
  rcases hlazy : h.isLazy type with _ | _
  · rw [hlazy] at hx
    cases hx
    exact .inl ⟨rfl, .inl rfl⟩
  rcases hs : h.isStorage owner with _ | _
  · rw [hlazy, hs] at hx
    cases hx
    exact .inl ⟨rfl, .inr (.inl rfl)⟩
  rcases hr : h.resolveField owner name with _ | r
  · rw [hlazy, hs, hr] at hx
    refine .inl ⟨?_, .inr (.inr rfl)⟩
    rcases hplatform : Names.isPlatformField name with _ | _
    · rw [hplatform] at hx
      cases hx
    · rw [hplatform] at hx
      cases hx
      rfl
  · rw [hlazy, hs, hr] at hx
    exact .inr ⟨rfl, rfl, r, rfl, (Except.ok.inj hx).symm⟩

/-- An instruction is kept, or it is an access that an accessor is called for. -/
theorem Weaving.MethodWeaver.redirect_eq_ok {h : Hierarchy} {c : ClassDef} {i i' : Instruction}
    (hi : redirect h (.exact h) c i = .ok i') :
    (i' = i ∧ ∀ owner name type, i = .getField owner name type ∨ i = .putField owner name type →
      accessorOwner h (.exact h) c owner name type = .ok none) ∨
    ∃ owner name type declaring,
      accessorOwner h (.exact h) c owner name type = .ok (some declaring) ∧
        ((i = .getField owner name type ∧
          i' = .invoke .special declaring (Names.getter name) ⟨[], some type⟩) ∨
        (i = .putField owner name type ∧
          i' = .invoke .special declaring (Names.setter name) ⟨[type], none⟩)) := by
  unfold redirect at hi
  split at hi
  · next owner name type =>
    obtain ⟨_ | declaring, hx, hi⟩ := bind_eq_ok.1 hi
    · cases hi
      refine .inl ⟨rfl, ?_⟩
      rintro owner' name' type' (heq | heq) <;> cases heq
      exact hx
    · cases hi
      exact .inr ⟨owner, name, type, declaring, hx, .inl ⟨rfl, rfl⟩⟩
  · next owner name type =>
    obtain ⟨_ | declaring, hx, hi⟩ := bind_eq_ok.1 hi
    · cases hi
      refine .inl ⟨rfl, ?_⟩
      rintro owner' name' type' (heq | heq) <;> cases heq
      exact hx
    · cases hi
      exact .inr ⟨owner, name, type, declaring, hx, .inr ⟨rfl, rfl⟩⟩
  · next hget hput =>
    cases hi
    refine .inl ⟨rfl, ?_⟩
    rintro owner name type (rfl | rfl)
    · exact absurd rfl (hget owner name type)
    · exact absurd rfl (hput owner name type)

/-- **An access that is redirected** is to a lazy field of the storage class that declares it. -/
theorem Weaving.MethodWeaver.exists_lazyField {h : Hierarchy} {c : ClassDef}
    {owner name declaring : String} {type : FieldType}
    (hroot : h.index.get? h.config.storageRoot = none)
    (htyped : h.isStorage owner = true → ∀ r, h.resolveField owner name = some r →
      r.field.type = type)
    (ha : accessorOwner h (.exact h) c owner name type = .ok (some declaring)) :
    ∃ d, ∃ f ∈ h.lazyFields d, h.index.get? declaring = some d ∧ h.isStorage declaring = true ∧
      h.descendsFrom declaring owner = true ∧ f.name = name ∧ f.type = type := by
  obtain ⟨hnone, -⟩ | ⟨hlazy, hs, r, hr, hx⟩ := accessorOwner_eq_ok ha
  · cases hnone
  split at hx
  swap
  · cases hx
  next hpersistent =>
  cases hx
  obtain ⟨d, hd, hf, hdescends⟩ := Hierarchy.resolveField_eq_some hr
  obtain ⟨hmem, hname⟩ := ClassDef.mem_of_field? hf
  have htype := htyped hs r hr
  exact ⟨d, r.field, Hierarchy.mem_lazyFields.2 ⟨hmem, hpersistent, htype ▸ hlazy⟩, hd,
    Hierarchy.isStorage_of_descendsFrom hroot hs hdescends, hdescends, hname, htype⟩

/-! ## A plain program and its woven form -/

/-- A method that the classes of one program have only in the other. -/
def Adds (p p' : Program) (name : String) (signature : Signature) : Prop :=
  ∃ n c c', p.classes.get? n = some c ∧ p'.classes.get? n = some c' ∧
    c.method? name signature = none ∧ c'.method? name signature ≠ none

/-- A field access that has the type of the field it finds, if its class is persistent. -/
def TypedAccess (h : Hierarchy) (owner name : String) (type : FieldType) : Prop :=
  Names.isSynthetic name = false ∧ (h.isStorage owner = true →
    Names.isPlatformField name = true ∨
      ∃ r, h.resolveField owner name = some r ∧ r.field.type = type)

/-- Instructions of a program that knows nothing of its woven form. -/
def Admissible (h : Hierarchy) (p p' : Program) : Instruction → Prop
  | .getField owner name type => TypedAccess h owner name type
  | .putField owner name type => TypedAccess h owner name type
  | .invoke _ _ name signature => ¬ Adds p p' name signature
  | _ => True

/-- The instructions that a woven method has in place of plain ones. -/
def Redirected (h : Hierarchy) (c : ClassDef) : Code → Code → Prop :=
  List.Forall₂ fun i i' => MethodWeaver.redirect h (.exact h) c i = .ok i'

/-- `p` holds the given classes as they are, and `p'` holds them woven. -/
structure WovenPair (h : Hierarchy) (classes : List ClassDef) (p p' : Program) : Prop where
  woven : WovenProgram h classes p'
  config : p.config = {}
  loaded : ∀ n, p.classes.get? n = h.index.get? n
  indexed : ∀ n c, h.index.get? n = some c → c ∈ classes
  size : p'.classes.size = p.classes.size
  noEntries : h.NoEntries
  noHooks : NoHookMethods classes
  ordinary : OrdinaryFields classes
  unique : UniqueFields h classes
  /-- Interfaces have no lazy fields, for they are given no accessors. -/
  concrete : ∀ c ∈ classes, h.isStorage c.name = true → c.isInterface = true → h.lazyFields c = []
  admissible : ∀ c ∈ classes, ∀ m ∈ c.methods, ∀ code, m.code = some code →
    ∀ i ∈ code, Admissible h p p' i

namespace WovenPair

variable {h : Hierarchy} {classes : List ClassDef} {p p' : Program} {c : ClassDef}
  {owner name C : String} {type : FieldType} {r : ResolvedField}

theorem get?_storageRoot (hp : WovenPair h classes p p') :
    h.index.get? h.config.storageRoot = none := by
  rcases hc : h.index.get? h.config.storageRoot with _ | c
  · rfl
  · obtain ⟨c', hc', -⟩ := hp.woven.loaded c (hp.indexed _ c hc)
    rw [ClassIndex.name_of_get? hc, hp.woven.platform _ (by simp [Config.platformTypes])] at hc'
    cases hc'

/-- Objects of storage classes have the hooks of a platform root. -/
theorem isStored (hp : WovenPair h classes p p') {s : State} {o : Nat}
    (hC : s.className? o = some C) (hs : h.isStorage C = true) : IsStored p' s o := by
  have hclimb : ∀ n C, climb h.superclassOf n C = some h.config.storageRoot →
      ∃ root m, h.config.isPlatformRoot root = true ∧ climb p'.superclassOf m C = some root := by
    intro n
    induction n with
    | zero =>
      rintro C ⟨⟩
      exact ⟨_, 0, by simp [Config.isPlatformRoot], rfl⟩
    | succ n ih =>
      intro C hn
      rw [climb] at hn
      obtain ⟨s, hs, hn⟩ := Option.bind_eq_some_iff.1 hn
      rcases hc : h.index.get? C with _ | c
      · by_cases hcontract : C = h.config.contractRoot
        · exact ⟨C, 0, by simp [Config.isPlatformRoot, hcontract], rfl⟩
        · simp only [Hierarchy.superclassOf, hc, if_neg hcontract] at hs
          cases hs
      · obtain ⟨root, m, hroot, hm⟩ := ih s hn
        rw [Hierarchy.superclassOf_of_get? hc] at hs
        have hnext := hp.woven.superclassOf_eq (hp.indexed _ c hc) hs
        rw [ClassIndex.name_of_get? hc] at hnext
        exact ⟨root, m + 1, hroot, by rw [climb_succ_of_next hnext, hm]⟩
  obtain ⟨n, hn⟩ := Hierarchy.descendsFrom_iff.1 hs
  obtain ⟨root, m, hroot, hm⟩ := hclimb n C hn
  refine ⟨C, hC, root, m, ?_, hm⟩
  rw [hp.woven.config, ← hp.woven.hierarchyConfig]
  exact hroot

/-! ### Which accesses are redirected -/

/-- An access that is redirected is one to a lazy field of its class. -/
theorem lazyAt_of_accessorOwner (hp : WovenPair h classes p p') {declaring : String}
    (ht : TypedAccess h owner name type)
    (ha : MethodWeaver.accessorOwner h (.exact h) c owner name type = .ok (some declaring)) :
    ∃ f, LazyAt h classes owner ⟨declaring, f⟩ ∧ f.name = name ∧ f.type = type := by
  have htyped (hs : h.isStorage owner = true) (r : ResolvedField)
      (hr : h.resolveField owner name = some r) : r.field.type = type := by
    rcases ht.2 hs with hplatform | ⟨r', hr', htype⟩
    · obtain ⟨d, hd, hf, -⟩ := Hierarchy.resolveField_eq_some hr
      obtain ⟨hmem, hname⟩ := ClassDef.mem_of_field? hf
      rw [← hname, (hp.ordinary d (hp.indexed _ d hd) _ hmem).2] at hplatform
      cases hplatform
    · cases hr.symm.trans hr'
      exact htype
  obtain ⟨d, f, hf, hd, hstorage, hdescends, hname, htype⟩ :=
    MethodWeaver.exists_lazyField hp.get?_storageRoot htyped ha
  obtain rfl := ClassIndex.name_of_get? hd
  have hdc := hp.indexed _ d hd
  refine ⟨f, ⟨d, ⟨hdc, hstorage, ?_, hf⟩, rfl, hdescends⟩, hname, htype⟩
  by_contra hinterface
  rw [hp.concrete d hdc hstorage (by simpa using hinterface)] at hf
  cases hf

/-- An access that is kept is not to a lazy field of its receiver. -/
theorem ne_of_accessorOwner (hp : WovenPair h classes p p') (ht : TypedAccess h owner name type)
    (ha : MethodWeaver.accessorOwner h (.exact h) c owner name type = .ok none)
    (hC : h.descendsFrom owner C = true) (hr : LazyAt h classes C r) : r.field.name ≠ name := by
  rintro rfl
  obtain ⟨d, hd, -, hdC⟩ := hr
  obtain ⟨hmem, hpersistent, hlazy⟩ := Hierarchy.mem_lazyFields.1 hd.declared
  have hordinary := (hp.ordinary d hd.mem _ hmem).2
  have hstorage : h.isStorage owner = true :=
    Hierarchy.isStorage_of_descendsFrom hp.get?_storageRoot
      (Hierarchy.descendsFrom_trans hdC hd.storage) hC
  obtain ⟨r', hr', htype⟩ : ∃ r', h.resolveField owner r.field.name = some r' ∧
      r'.field.type = type := by
    refine (ht.2 hstorage).resolve_left fun hplatform => ?_
    rw [hordinary] at hplatform
    cases hplatform
  -- the field that the access finds is the lazy one, for its name is unique
  obtain ⟨e, he, hf, hdescends⟩ := Hierarchy.resolveField_eq_some hr'
  obtain ⟨hmem', hname⟩ := ClassDef.mem_of_field? hf
  obtain ⟨-, hfield⟩ := hp.unique.eq_of_name hd.mem (hp.indexed _ e he) hdC
    (Hierarchy.descendsFrom_trans hC (ClassIndex.name_of_get? he ▸ hdescends)) hmem hmem' hname.symm
  rw [← hfield] at htype
  obtain ⟨-, hwhy⟩ | ⟨-, -, r'', hr'', hx⟩ := MethodWeaver.accessorOwner_eq_ok ha
  · rcases hwhy with hwhy | hwhy | hwhy
    · rw [← htype, hlazy] at hwhy
      cases hwhy
    · rw [hstorage] at hwhy
      cases hwhy
    · rw [hr'] at hwhy
      cases hwhy
  · cases hr'.symm.trans hr''
    rw [← hfield, if_pos hpersistent] at hx
    cases hx

/-! ### What calls find -/

/-- The two programs have classes of the same names. -/
theorem class_cases (hp : WovenPair h classes p p') (n : String) :
    (p.classes.get? n = none ∧ p'.classes.get? n = none) ∨
      ∃ c c', c ∈ classes ∧ p.classes.get? n = some c ∧ p'.classes.get? n = some c' ∧
        ClassWoven h c c' := by
  rcases hc : h.index.get? n with _ | c
  · refine .inl ⟨(hp.loaded n).trans hc, ?_⟩
    by_contra hloaded
    obtain ⟨c', hc'⟩ := Option.ne_none_iff_exists'.1 hloaded
    obtain ⟨c, hmem, rfl, -⟩ := hp.woven.origin n c' hc'
    rw [hp.woven.index c hmem] at hc
    cases hc
  · have hmem := hp.indexed n c hc
    obtain ⟨c', hc', hwoven⟩ := hp.woven.loaded c hmem
    rw [ClassIndex.name_of_get? hc] at hc'
    exact .inr ⟨c, c', hmem, (hp.loaded n).trans hc, hc', hwoven⟩

/-- A method of a class and its woven form. -/
theorem codeOf?_rel (hp : WovenPair h classes p p') {n : String} {c' : ClassDef}
    {signature : Signature} (hmem : c ∈ classes) (hc : p.classes.get? n = some c)
    (hc' : p'.classes.get? n = some c') (hwoven : ClassWoven h c c')
    (hadds : ¬ Adds p p' name signature) :
    Option.Rel (fun code code' => Redirected h c code code' ∧ ∀ i ∈ code, Admissible h p p' i)
      (Program.codeOf? c name signature) (Program.codeOf? c' name signature) := by
  obtain ⟨methods, hmethods, hgrows⟩ := hwoven.grows
  have hfind : Option.Rel (MethodWoven h c) (c.method? name signature)
      (({ c with methods } : ClassDef).method? name signature) := by
    refine rel_find? (fun m _ m' hm => ?_) hmethods
    rw [MethodDef.isNamed, MethodDef.isNamed, hm.name, hm.signature hp.noEntries]
  rcases hm : c.method? name signature with _ | m
  · have hm' : c'.method? name signature = none := by
      by_contra hadded
      exact hadds ⟨n, c, c', hc, hc', hm, hadded⟩
    rw [Program.codeOf?, Program.codeOf?, hm, hm']
    exact .none
  · rw [hm] at hfind
    rcases hm' : ({ c with methods } : ClassDef).method? name signature with _ | m'
    · rw [hm'] at hfind
      cases hfind
    rw [hm'] at hfind
    cases hfind with | some hrel =>
    rw [Program.codeOf?, Program.codeOf?, hm, hgrows.keeps hm', Option.bind_some, Option.bind_some]
    have hcode := hrel.code hp.noEntries
    have hadmissible := hp.admissible c hmem m (ClassDef.mem_of_method? hm).1
    rcases hplain : m.code with _ | code <;> rcases hredirected : m'.code with _ | code'
    · exact .none
    · rw [hplain, hredirected] at hcode
      cases hcode
    · rw [hplain, hredirected] at hcode
      cases hcode
    · rw [hplain, hredirected] at hcode
      cases hcode with | some hcode => exact .some ⟨hcode, hadmissible code hplain⟩

end WovenPair

/-- What a call finds in the plain program and in the woven one. -/
inductive CalleeWoven (h : Hierarchy) (p p' : Program) :
    Except Fault Callee → Except Fault Callee → Prop
  | error (e : Fault) : CalleeWoven h p p' (.error e) (.error e)
  | code {c : ClassDef} {code code' : Code} : Redirected h c code code' →
      (∀ i ∈ code, Admissible h p p' i) → CalleeWoven h p p' (.ok (.code code)) (.ok (.code code'))
  | hook (className : String) :
      CalleeWoven h p p' (.ok (.hook className)) (.ok (.hook className))

namespace WovenPair

variable {h : Hierarchy} {classes : List ClassDef} {p p' : Program} {name : String}
  {signature : Signature}

theorem resolve_rel (hp : WovenPair h classes p p') (hadds : ¬ Adds p p' name signature)
    (first : String) :
    CalleeWoven h p p' (p.resolve first name signature) (p'.resolve first name signature) := by
  have hfrom : ∀ fuel current, CalleeWoven h p p'
      (p.resolveFrom first name signature fuel current)
      (p'.resolveFrom first name signature fuel current) := by
    intro fuel
    induction fuel with
    | zero => exact fun _ => .error _
    | succ fuel ih =>
      intro current
      rw [Program.resolveFrom, Program.resolveFrom]
      obtain ⟨hc, hc'⟩ | ⟨c, c', hmem, hc, hc', hwoven⟩ := hp.class_cases current
      · rw [hc, hc']
        exact .hook current
      simp only [hc, hc']
      have hrel := hp.codeOf?_rel hmem hc hc' hwoven hadds
      rcases hcode : Program.codeOf? c name signature with _ | code <;>
        rcases hcode' : Program.codeOf? c' name signature with _ | code' <;>
        rw [hcode, hcode'] at hrel <;> cases hrel
      · obtain ⟨methods, -, hgrows⟩ := hwoven.grows
        rw [hgrows.superclass]
        rcases c.superclass with _ | s
        · exact .error _
        · exact ih s
      · next hrel => exact .code hrel.1 hrel.2
  rw [Program.resolve, Program.resolve, hp.size]
  exact hfrom _ _

/-- **A call finds the woven form** of what it finds in the plain program. -/
theorem callee_rel (hp : WovenPair h classes p p') {call : Call} {s s' : State}
    (hadds : ¬ Adds p p' call.name call.signature) (ha : Agrees h classes s s') :
    CalleeWoven h p p' (p.callee call s) (p'.callee call s') := by
  have hclassOf (v : Value) : p'.classOf s' v = p.classOf s v := by
    cases v with
    | object id =>
      have hid := ha.objects id
      rw [State.className?, State.className?] at hid
      rw [Program.classOf, Program.classOf]
      revert hid
      rcases s.heap[id]? with _ | o <;> rcases s'.heap[id]? with _ | o' <;> intro hid
      · rfl
      · cases hid
      · cases hid
      · exact congrArg Except.ok (Option.some.inj hid)
    | str _ => simp only [Program.classOf, hp.config, hp.woven.config]
    | _ => rfl
  have hdispatch : p'.dispatchClass call s' = p.dispatchClass call s := by
    rw [Program.dispatchClass, Program.dispatchClass]
    split
    · rfl
    · rfl
    · rcases call.args with _ | ⟨receiver, args⟩
      · rfl
      · exact hclassOf receiver
  rw [Program.callee, Program.callee, hdispatch]
  rcases p.dispatchClass call s with e | first
  · exact .error e
  · exact hp.resolve_rel hadds first

end WovenPair

end StorageWeave
