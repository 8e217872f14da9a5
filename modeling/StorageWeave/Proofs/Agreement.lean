import StorageWeave.Proofs.LazyFields

/-!
# States that agree

A plain program and a woven one work on states with the same objects. They agree when every field
has the same value in both, except for lazy fields of persisted objects that the woven program has
not loaded yet: there the plain program already has the persisted value (`Agrees`). Writes,
allocations, loads and hooks keep the agreement.
-/

namespace StorageWeave

open Bytecode Weaving Machine

namespace Weaving.Hierarchy

variable {h : Hierarchy}

/-- The superclasses of a class are in one line. -/
theorem descendsFrom_or {a b c : String} (ha : h.descendsFrom a c = true)
    (hb : h.descendsFrom b c = true) : h.descendsFrom a b = true ∨ h.descendsFrom b a = true := by
  obtain ⟨m, hm⟩ := descendsFrom_iff.1 ha
  obtain ⟨n, hn⟩ := descendsFrom_iff.1 hb
  rcases Nat.le_total m n with hle | hle
  · obtain ⟨k, rfl⟩ := Nat.le.dest hle
    rw [climb_add, hm, Option.bind_some] at hn
    exact .inr (descendsFrom_iff.2 ⟨k, hn⟩)
  · obtain ⟨k, rfl⟩ := Nat.le.dest hle
    rw [climb_add, hn, Option.bind_some] at hm
    exact .inl (descendsFrom_iff.2 ⟨k, hm⟩)

end Weaving.Hierarchy

/-- Field names are unique along every line of superclasses. -/
def UniqueFields (h : Hierarchy) (classes : List ClassDef) : Prop :=
  ∀ c ∈ classes, ∀ d ∈ classes, h.descendsFrom d.name c.name = true →
    ∀ f ∈ c.fields, ∀ g ∈ d.fields, f.name = g.name → c = d ∧ f = g

/-- Field names are neither marked nor those of the platform. -/
def OrdinaryFields (classes : List ClassDef) : Prop :=
  ∀ c ∈ classes, ∀ f ∈ c.fields,
    Names.isSynthetic f.name = false ∧ Names.isPlatformField f.name = false

/-- A lazy field of the objects of a class. -/
def LazyAt (h : Hierarchy) (classes : List ClassDef) (className : String) (r : ResolvedField) :
    Prop :=
  ∃ d, IsLazyField h classes d r.field ∧ r.declaring = d.name ∧
    h.descendsFrom d.name className = true

variable {h : Hierarchy} {classes : List ClassDef} {C : String} {r r' : ResolvedField}

theorem IsLazyField.mem_fields {d : ClassDef} {f : FieldDef} (hf : IsLazyField h classes d f) :
    f ∈ d.fields :=
  (Hierarchy.mem_lazyFields.1 hf.declared).1

/-- Fields of one name on one line of superclasses are the same. -/
theorem UniqueFields.eq_of_name (hu : UniqueFields h classes) {c d : ClassDef} {f g : FieldDef}
    (hc : c ∈ classes) (hd : d ∈ classes) (hC : h.descendsFrom c.name C = true)
    (hD : h.descendsFrom d.name C = true) (hf : f ∈ c.fields) (hg : g ∈ d.fields)
    (hname : f.name = g.name) : c = d ∧ f = g := by
  rcases Hierarchy.descendsFrom_or hC hD with hdc | hcd
  · obtain ⟨rfl, rfl⟩ := hu d hd c hc hdc g hg f hf hname.symm
    exact ⟨rfl, rfl⟩
  · exact hu c hc d hd hcd f hf g hg hname

namespace LazyAt

theorem below {c : String} (hr : LazyAt h classes C r) (hc : h.descendsFrom C c = true) :
    LazyAt h classes c r := by
  obtain ⟨d, hd, hdeclaring, hC⟩ := hr
  exact ⟨d, hd, hdeclaring, Hierarchy.descendsFrom_trans hc hC⟩

theorem ordinary (ho : OrdinaryFields classes) (hr : LazyAt h classes C r) :
    Names.isSynthetic r.field.name = false ∧ Names.isPlatformField r.field.name = false := by
  obtain ⟨d, hd, -, -⟩ := hr
  exact ho d hd.mem r.field hd.mem_fields

theorem inStorage_not_mem (ho : OrdinaryFields classes) (hr : LazyAt h classes C r) :
    Names.inStorage ∉ parts r := by
  have hplatform : Names.isPlatformField Names.inStorage = true := by decide
  have hsynthetic : Names.isSynthetic Names.inStorage = false := by decide
  rw [mem_parts]
  rintro (he | he | he)
  · rw [he, (hr.ordinary ho).2] at hplatform
    cases hplatform
  · rw [he, Names.isSynthetic_shadow] at hsynthetic
    cases hsynthetic
  · rw [he, Names.isSynthetic_loadedFlag] at hsynthetic
    cases hsynthetic

/-- The objects of a class have one lazy field of a name. -/
theorem eq_of_name (hu : UniqueFields h classes) (hr : LazyAt h classes C r)
    (hr' : LazyAt h classes C r') (hname : r.field.name = r'.field.name) : r = r' := by
  obtain ⟨d, hd, hdeclaring, hC⟩ := hr
  obtain ⟨d', hd', hdeclaring', hC'⟩ := hr'
  obtain ⟨rfl, hfield⟩ := hu.eq_of_name hd.mem hd'.mem hC hC' hd.mem_fields hd'.mem_fields hname
  obtain ⟨declaring, field⟩ := r
  obtain ⟨declaring', field'⟩ := r'
  obtain rfl : field = field' := hfield
  obtain rfl : declaring = declaring' := hdeclaring.trans hdeclaring'.symm
  rfl

end LazyAt

/-! ## Agreement -/

/-- What a plain state and a woven one have in common. -/
structure Agrees (h : Hierarchy) (classes : List ClassDef) (s s' : State) : Prop where
  objects : ∀ id, s'.className? id = s.className? id
  persisted : s'.persisted = s.persisted
  updates : s'.updates = s.updates
  extracted : s'.extracted = s.extracted
  entries : s'.entries = s.entries
  /-- Fields that are not lazy are the same. -/
  plain : ∀ id n, Names.isSynthetic n = false →
    (∀ C r, s.className? id = some C → LazyAt h classes C r → r.field.name ≠ n) →
      s'.field? (.object id) n = s.field? (.object id) n
  /-- Lazy fields read the same, or wait to be loaded with what the plain state has already. -/
  lazy : ∀ id C r, s.className? id = some C → LazyAt h classes C r →
    FlagsValid s' (.object id) r ∧
      s.read (.object id) r.field.name r.field.type =
        if s'.stored (.object id) ≠ .int 0 ∧ s'.loaded (.object id) r = .int 0 then s.persistedOf r
        else s'.read (.object id) r.field.name r.field.type

theorem Machine.State.isSome_className? {s : State} {id : Nat} :
    (s.className? id).isSome ↔ id < s.heap.size := by
  simp [State.className?]

namespace Agrees

variable {s s' : State} {o : Nat} {n : String} {v : Value}

theorem size_eq (ha : Agrees h classes s s') : s'.heap.size = s.heap.size := by
  have hiff (id : Nat) : id < s'.heap.size ↔ id < s.heap.size := by
    rw [← State.isSome_className?, ha.objects, State.isSome_className?]
  have h₁ := hiff s.heap.size
  have h₂ := hiff s'.heap.size
  omega

theorem place?_eq (ha : Agrees h classes s s') (v : Value) : s'.place? v = s.place? v := by
  cases v <;> simp [State.place?, ha.size_eq]

/-- The parts of lazy fields are never those of the platform. -/
theorem stored_eq (ho : OrdinaryFields classes) (ha : Agrees h classes s s') (v : Value) :
    s'.stored v = s.stored v := by
  cases v with
  | object id =>
    rw [State.stored, State.read, ha.plain id _ (by decide) fun C r _ hr he => ?_]
    · rfl
    · have hplatform := (hr.ordinary ho).2
      rw [he] at hplatform
      exact absurd hplatform (by decide)
  | _ => rfl

/-- Agreement depends on the heap and the persisted values, and on equal records. -/
theorem of_heap (ha : Agrees h classes s s') {t t' : State} (hheap : t.heap = s.heap)
    (hheap' : t'.heap = s'.heap) (hpersisted : t.persisted = s.persisted)
    (hpersisted' : t'.persisted = s'.persisted) (hupdates : t'.updates = t.updates)
    (hextracted : t'.extracted = t.extracted) (hentries : t'.entries = t.entries) :
    Agrees h classes t t' := by
  obtain ⟨heap, persisted, fetches, updates, extracted, entries⟩ := t
  obtain ⟨heap', persisted', fetches', updates', extracted', entries'⟩ := t'
  obtain rfl := hheap
  obtain rfl := hheap'
  obtain rfl := hpersisted
  obtain rfl := hpersisted'
  exact ⟨ha.objects, ha.persisted, hupdates, hextracted, hentries, ha.plain, ha.lazy⟩

/-- Both states are written at a field that is not lazy, and no object becomes persisted. -/
theorem write_plain (hord : OrdinaryFields classes) (ha : Agrees h classes s s')
    (ho : o < s.heap.size) (hn : Names.isSynthetic n = false)
    (hplain : ∀ C r, s.className? o = some C → LazyAt h classes C r → r.field.name ≠ n)
    (hkeep : (s.write o n v).stored (.object o) = s.stored (.object o)) :
    Agrees h classes (s.write o n v) (s'.write o n v) := by
  have ho' : o < s'.heap.size := ha.size_eq ▸ ho
  refine ⟨fun id => ?_, ha.persisted, ha.updates, ha.extracted, ha.entries, ?_, ?_⟩
  · rw [State.className?_write, State.className?_write, ha.objects]
  · intro id m hm hlazy
    simp only [State.className?_write] at hlazy
    rw [State.field?_write _ ho', State.field?_write _ ho, ha.plain id m hm hlazy]
  · intro id C r hC hr
    rw [State.className?_write] at hC
    obtain ⟨⟨⟨x, hx⟩, y, hy⟩, hread⟩ := ha.lazy id C r hC hr
    have hstored : (s'.write o n v).stored (.object id) = s'.stored (.object id) := by
      rw [State.stored, State.read_write _ ho']
      split
      · next hs =>
        obtain ⟨rfl, rfl⟩ := hs
        rw [State.stored, State.read_write _ ho, if_pos ⟨rfl, rfl⟩] at hkeep
        rw [hkeep, ha.stored_eq hord]
      · rfl
    have hloaded : (s'.write o n v).loaded (.object id) r = s'.loaded (.object id) r := by
      refine State.read_write_of_ne _ ho' id ?_ _ _
      rintro rfl
      rw [Names.isSynthetic_loadedFlag] at hn
      cases hn
    have hne : ¬(o = id ∧ n = r.field.name) := by
      rintro ⟨rfl, he⟩
      exact hplain C r hC hr he.symm
    refine ⟨⟨⟨x, hstored.trans hx⟩, y, hloaded.trans hy⟩, ?_⟩
    rw [hstored, hloaded, State.read_write _ ho, State.read_write _ ho', if_neg hne, if_neg hne]
    exact hread

/-- Both programs make a new object. -/
theorem allocate (ha : Agrees h classes s s') (className : String) :
    Agrees h classes (s.allocate className).2 (s'.allocate className).2 := by
  have hnone {t : State} {id : Nat} (hid : id = t.heap.size) (n : String) :
      t.field? (.object id) n = none := by
    rw [State.field?, hid, Array.getElem?_eq_none (Nat.le_refl _), Option.bind_none]
  refine ⟨fun id => ?_, ha.persisted, ha.updates, ha.extracted, ha.entries, ?_, ?_⟩
  · rw [State.className?_allocate, State.className?_allocate, ha.size_eq, ha.objects]
  · intro id n hn hlazy
    rw [State.field?_allocate, State.field?_allocate]
    by_cases hid : id = s.heap.size
    · rw [hnone hid, hnone (hid.trans ha.size_eq.symm)]
    · exact ha.plain id n hn fun C r hC => hlazy C r
        (by rw [State.className?_allocate, if_neg hid, hC])
  · intro id C r hC hr
    rw [State.className?_allocate] at hC
    simp only [FlagsValid, State.stored, State.loaded, State.read_allocate]
    by_cases hid : id = s.heap.size
    · have hnone' := hnone (hid.trans ha.size_eq.symm)
      simp only [State.read, hnone hid, hnone', Option.getD_none]
      exact ⟨⟨⟨0, rfl⟩, 0, rfl⟩, (if_neg fun hs => hs.1 rfl).symm⟩
    · rw [if_neg hid] at hC
      exact ha.lazy id C r hC hr

/-! ### Loads and writes of lazy fields -/

/-- The woven program loads a lazy field; the plain one had it. -/
theorem load (hord : OrdinaryFields classes) (hu : UniqueFields h classes)
    (ha : Agrees h classes s s') (hC : s.className? o = some C) (hr : LazyAt h classes C r)
    (hmissing : s'.stored (.object o) ≠ .int 0 ∧ s'.loaded (.object o) r = .int 0) :
    Agrees h classes s (s'.load o r) := by
  have ho' : o < s'.heap.size := ha.size_eq ▸ State.lt_size_of_className? hC
  have hname := (hr.ordinary hord).1
  have hstored (id : Nat) : (s'.load o r).stored (.object id) = s'.stored (.object id) := by
    rw [State.stored, State.read, State.field?_load_of_ne ho' fun _ => hr.inStorage_not_mem hord]
    rfl
  refine ⟨fun id => ?_, ha.persisted, ha.updates, ha.extracted, ha.entries, ?_, ?_⟩
  · rw [State.className?_load, ha.objects]
  · intro id n hn hlazy
    rw [State.field?_load_of_ne ho', ha.plain id n hn hlazy]
    rintro rfl hmem
    refine hlazy C r hC hr ?_
    rcases mem_parts.1 hmem with rfl | rfl | rfl
    · rfl
    · rw [Names.isSynthetic_shadow] at hn
      cases hn
    · rw [Names.isSynthetic_loadedFlag] at hn
      cases hn
  · intro id C' r' hC' hr'
    obtain ⟨⟨⟨x, hx⟩, y, hy⟩, hread⟩ := ha.lazy id C' r' hC' hr'
    by_cases hsame : id = o ∧ r' = r
    · obtain ⟨rfl, rfl⟩ := hsame
      obtain ⟨hvalue, hflag⟩ := State.field?_load ho' hname
      have hloaded : (s'.load id r').loaded (.object id) r' = .int 1 := by
        rw [State.loaded, State.read, hflag]
        rfl
      refine ⟨⟨⟨x, (hstored id).trans hx⟩, 1, hloaded⟩, ?_⟩
      rw [if_neg fun hs => by rw [hloaded] at hs; exact absurd hs.2 (by decide), hread,
        if_pos hmissing, State.read, hvalue, State.persistedOf, State.persistedOf, ha.persisted]
      rfl
    -- another field, or the field of another object, has parts of its own
    · have hother (n : String) (hn : n ∈ parts r') :
          (s'.load o r).field? (.object id) n = s'.field? (.object id) n := by
        refine State.field?_load_of_ne ho' fun hid => ?_
        obtain rfl := hid
        obtain rfl := Option.some.inj (hC.symm.trans hC')
        refine not_mem_parts (hr'.ordinary hord).1 hname (fun he => hsame ⟨rfl, ?_⟩) hn
        exact hr'.eq_of_name hu hr he
      have hloaded : (s'.load o r).loaded (.object id) r' = s'.loaded (.object id) r' := by
        rw [State.loaded, State.read, hother _ (mem_parts.2 (.inr (.inr rfl)))]
        rfl
      refine ⟨⟨⟨x, (hstored id).trans hx⟩, y, hloaded.trans hy⟩, ?_⟩
      rw [hstored, hloaded, State.read, State.read, hother _ (mem_parts.2 (.inl rfl))]
      exact hread

/-- Before an access the woven program has the field, with the value of the plain one. -/
theorem ensure (hord : OrdinaryFields classes) (hu : UniqueFields h classes)
    (ha : Agrees h classes s s') (hC : s.className? o = some C) (hr : LazyAt h classes C r) :
    Agrees h classes s (s'.ensure (.object o) r) ∧
      ¬((s'.ensure (.object o) r).stored (.object o) ≠ .int 0 ∧
        (s'.ensure (.object o) r).loaded (.object o) r = .int 0) := by
  by_cases hmissing : s'.stored (.object o) ≠ .int 0 ∧ s'.loaded (.object o) r = .int 0
  · rw [State.ensure_of_missing hmissing.1 hmissing.2]
    refine ⟨ha.load hord hu hC hr hmissing, fun hs => ?_⟩
    have hflag := (State.field?_load (ha.size_eq ▸ State.lt_size_of_className? hC)
      (hr.ordinary hord).1).2
    rw [State.loaded, State.read, hflag] at hs
    exact absurd hs.2 (by decide)
  · rw [show s'.ensure (.object o) r = s' from if_neg hmissing]
    exact ⟨ha, hmissing⟩

/-- Both programs write a lazy field that the woven one has. -/
theorem write_lazy (hord : OrdinaryFields classes) (hu : UniqueFields h classes)
    (ha : Agrees h classes s s') (hC : s.className? o = some C) (hr : LazyAt h classes C r)
    (hhas : ¬(s'.stored (.object o) ≠ .int 0 ∧ s'.loaded (.object o) r = .int 0)) (v : Value) :
    Agrees h classes (s.write o r.field.name v) (s'.write o r.field.name v) := by
  have ho : o < s.heap.size := State.lt_size_of_className? hC
  have ho' : o < s'.heap.size := ha.size_eq ▸ ho
  obtain ⟨hname, hplatform⟩ := hr.ordinary hord
  refine ⟨fun id => ?_, ha.persisted, ha.updates, ha.extracted, ha.entries, ?_, ?_⟩
  · rw [State.className?_write, State.className?_write, ha.objects]
  · intro id n hn hlazy
    simp only [State.className?_write] at hlazy
    rw [State.field?_write _ ho', State.field?_write _ ho, ha.plain id n hn hlazy]
  · intro id C' r' hC' hr'
    rw [State.className?_write] at hC'
    obtain ⟨⟨⟨x, hx⟩, y, hy⟩, hread⟩ := ha.lazy id C' r' hC' hr'
    have hstored : (s'.write o r.field.name v).stored (.object id) = s'.stored (.object id) := by
      refine State.read_write_of_ne _ ho' id (fun he => ?_) _ _
      rw [he] at hplatform
      exact absurd hplatform (by decide)
    have hloaded : (s'.write o r.field.name v).loaded (.object id) r' =
        s'.loaded (.object id) r' := by
      refine State.read_write_of_ne _ ho' id (fun he => ?_) _ _
      rw [he, Names.isSynthetic_loadedFlag] at hname
      cases hname
    refine ⟨⟨⟨x, hstored.trans hx⟩, y, hloaded.trans hy⟩, ?_⟩
    rw [hstored, hloaded, State.read_write _ ho, State.read_write _ ho']
    by_cases hsame : o = id ∧ r.field.name = r'.field.name
    · obtain ⟨rfl, he⟩ := hsame
      obtain rfl := Option.some.inj (hC.symm.trans hC')
      obtain rfl := hr.eq_of_name hu hr' he
      rw [if_neg hhas, if_pos ⟨rfl, rfl⟩, if_pos ⟨rfl, rfl⟩]
    · rw [if_neg hsame, if_neg hsame]
      exact hread

end Agrees

/-! ## Hooks -/

/-- A computation gives the same result in both states and leaves states that agree. -/
def AgreesOn (h : Hierarchy) (classes : List ClassDef) {α : Type} (x : Effect α) (s s' : State) :
    Prop :=
  (x.run s').1 = (x.run s).1 ∧ Agrees h classes (x.run s).2 (x.run s').2

namespace AgreesOn

variable {α β : Type} {x : Effect α} {f : α → Effect β} {s s' : State}

theorem pure (ha : Agrees h classes s s') (a : α) : AgreesOn h classes (Pure.pure a) s s' :=
  ⟨rfl, ha⟩

theorem throw (ha : Agrees h classes s s') (e : Fault) :
    AgreesOn h classes (throw e : Effect α) s s' :=
  ⟨rfl, ha⟩

theorem lift (ha : Agrees h classes s s') (e : Except Fault α) :
    AgreesOn h classes (liftM e : Effect α) s s' :=
  ⟨rfl, ha⟩

theorem bind (hx : AgreesOn h classes x s s')
    (hf : ∀ a t t', x.run s = (.ok a, t) → Agrees h classes t t' → AgreesOn h classes (f a) t t') :
    AgreesOn h classes (x >>= f) s s' := by
  obtain ⟨hresult, hagrees⟩ := hx
  rcases hrun : x.run s with ⟨r, t⟩
  rcases hrun' : x.run s' with ⟨r', t'⟩
  rw [hrun, hrun'] at hresult hagrees
  obtain rfl : r' = r := hresult
  cases r' with
  | error e =>
    rw [AgreesOn, run_bind_error hrun, run_bind_error hrun']
    exact ⟨rfl, hagrees⟩
  | ok a =>
    rw [AgreesOn, run_bind hrun, run_bind hrun']
    exact hf a t t' hrun hagrees

/-- Recording something leaves the heap and the persisted values alone. -/
theorem modify (ha : Agrees h classes s s') {g : State → State}
    (hheap : ∀ t, (g t).heap = t.heap) (hpersisted : ∀ t, (g t).persisted = t.persisted)
    (hupdates : (g s').updates = (g s).updates) (hextracted : (g s').extracted = (g s).extracted)
    (hentries : (g s').entries = (g s).entries) :
    AgreesOn h classes (modify g : Effect PUnit) s s' :=
  ⟨rfl, ha.of_heap (hheap s) (hheap s') (hpersisted s) (hpersisted s') hupdates hextracted hentries⟩

/-- A platform field is written. -/
theorem setField (hord : OrdinaryFields classes) (ha : Agrees h classes s s') {object v : Value}
    {name : String} (hname : Names.isSynthetic name = false)
    (hplatform : Names.isPlatformField name = true)
    (hkeep : ∀ o, s.place? object = some o →
      (s.write o name v).stored (.object o) = s.stored (.object o)) :
    AgreesOn h classes (setField object name v) s s' := by
  rw [AgreesOn, run_setField, run_setField, ha.place?_eq]
  rcases hplace : s.place? object with _ | o
  · exact ⟨rfl, ha⟩
  · refine ⟨rfl, ha.write_plain hord (State.of_place?_eq_some hplace).2 hname ?_ (hkeep o hplace)⟩
    rintro C r - hr rfl
    rw [(hr.ordinary hord).2] at hplatform
    cases hplatform

theorem constructRoot (hord : OrdinaryFields classes) (ha : Agrees h classes s s')
    (args : List Value)
    (hkeep : ∀ o, ((constructRoot args).run s).2.stored (.object o) = s.stored (.object o)) :
    AgreesOn h classes (constructRoot args) s s' := by
  match args with
  | [] => exact throw ha _
  | [this] =>
    refine setField hord ha (by decide) (by decide) fun o ho => ?_
    have hrun : (Machine.constructRoot [this]).run s =
        (.ok (), s.write o Names.inStorage (.int 0)) := by
      refine (run_setField ..).trans ?_
      rw [ho]
    have hkept := hkeep o
    rwa [hrun] at hkept
  | this :: reference :: rest =>
    refine (setField hord ha (by decide) (by decide) fun o ho => ?_).bind fun _ t t' ht hagrees =>
      setField hord hagrees (by decide) (by decide) fun o ho => ?_
    · exact State.read_write_of_ne _ (State.of_place?_eq_some ho).2 o (by decide) _ _
    · have hrun : (Machine.constructRoot (this :: reference :: rest)).run s =
          (.ok (), t.write o Names.inStorage (.int 1)) := by
        refine (run_bind ht).trans ((run_setField ..).trans ?_)
        rw [ho]
      have hkept := hkeep o
      rw [hrun] at hkept
      refine hkept.trans ?_
      rw [run_setField] at ht
      split at ht
      · next place hplace =>
        cases ht
        exact (State.read_write_of_ne _ (State.of_place?_eq_some hplace).2 o (by decide) _ _).symm
      · cases ht

theorem fetchPersisted (ha : Agrees h classes s s') (args : List Value) :
    AgreesOn h classes (fetchPersisted args) s s' := by
  refine (lift ha _).bind fun className t t' _ ha => ?_
  refine (lift ha _).bind fun field t t' _ ha => ?_
  refine (lift ha _).bind fun typeName t t' _ ha => ?_
  refine ⟨?_, ha.of_heap rfl rfl rfl rfl ha.updates ha.extracted ha.entries⟩
  show Except.ok ((t'.persisted.get? (className, field)).getD .null) =
    Except.ok ((t.persisted.get? (className, field)).getD .null)
  rw [ha.persisted]

theorem recordEntry (ha : Agrees h classes s s') (args : List Value) :
    AgreesOn h classes (recordEntry args) s s' := by
  refine (lift ha _).bind fun callee t t' _ ha => ?_
  refine (lift ha _).bind fun caller t t' _ ha => ?_
  refine modify ha (fun _ => rfl) (fun _ => rfl) ha.updates ha.extracted ?_
  show t'.entries.push _ = t.entries.push _
  rw [ha.entries]

theorem recordPayableEntry (ha : Agrees h classes s s') (args : List Value) :
    AgreesOn h classes (recordPayableEntry args) s s' := by
  refine (lift ha _).bind fun callee t t' _ ha => ?_
  refine (lift ha _).bind fun caller t t' _ ha => ?_
  refine (lift ha _).bind fun amount t t' _ ha => ?_
  refine modify ha (fun _ => rfl) (fun _ => rfl) ha.updates ha.extracted ?_
  show t'.entries.push _ = t.entries.push _
  rw [ha.entries]

theorem recordFieldUpdate (ha : Agrees h classes s s') (args : List Value) :
    AgreesOn h classes (recordFieldUpdate args) s s' := by
  refine (lift ha _).bind fun reference t t' _ ha => ?_
  refine (lift ha _).bind fun className t t' _ ha => ?_
  refine (lift ha _).bind fun field t t' _ ha => ?_
  refine (lift ha _).bind fun tag t t' _ ha => ?_
  refine (lift ha _).bind fun value t t' _ ha => ?_
  refine modify ha (fun _ => rfl) (fun _ => rfl) ?_ ha.extracted ha.entries
  show t'.updates.push _ = t.updates.push _
  rw [ha.updates]

theorem recordExtraction (ha : Agrees h classes s s') (args : List Value) :
    AgreesOn h classes (recordExtraction args) s s' := by
  refine (lift ha _).bind fun value t t' _ ha => ?_
  refine modify ha (fun _ => rfl) (fun _ => rfl) ha.updates ?_ ha.entries
  show t'.extracted.push _ = t.extracted.push _
  rw [ha.extracted]

/-- **Hooks keep the agreement**, unless they make an object persisted or fresh. -/
theorem runHook (hord : OrdinaryFields classes) (ha : Agrees h classes s s') (config : Config)
    (className name : String) (args : List Value)
    (hkeep : ∀ o, ((runHook config className name args).run s).2.stored (.object o) =
      s.stored (.object o)) :
    AgreesOn h classes (runHook config className name args) s s' := by
  rw [Machine.runHook] at hkeep ⊢
  split_ifs at hkeep ⊢
  · refine (constructRoot hord ha args fun o => ?_).bind fun _ t t' _ ha => pure ha none
    rw [← hkeep o, run_bind_pure]
  · exact pure ha none
  · exact (fetchPersisted ha args).bind fun v t t' _ ha => pure ha (some v)
  · exact (recordEntry ha args).bind fun _ t t' _ ha => pure ha none
  · exact (recordPayableEntry ha args).bind fun _ t t' _ ha => pure ha none
  · exact (recordFieldUpdate ha args).bind fun _ t t' _ ha => pure ha none
  · exact (recordExtraction ha args).bind fun _ t t' _ ha => pure ha none
  · exact throw ha _

end AgreesOn

end StorageWeave
