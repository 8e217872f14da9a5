import StorageWeave.Proofs.Deserialization
import StorageWeave.Proofs.LazyFields

/-!
# Sessions with a persisted object

A deserialized object is read, written and asked for its changes in any order (`Access`). Every
access succeeds, a lazy field is fetched at its first use only, and a read gives what was written
last, or the persisted value (`Serves`).
-/

namespace StorageWeave

open Bytecode Weaving

/-! ## Names of accessors -/

namespace Weaving

theorem Names.getter_injective {a b : String} (h : Names.getter a = Names.getter b) : a = b := by
  simpa [Names.getter] using h

theorem Names.setter_injective {a b : String} (h : Names.setter a = Names.setter b) : a = b := by
  simpa [Names.setter] using h

theorem Names.getter_ne (a b : String) : Names.getter a ≠ Names.setter b ∧
    Names.getter a ≠ Names.ensureLoaded b ∧ Names.setter a ≠ Names.ensureLoaded b := by
  refine ⟨fun h => ?_, fun h => ?_, fun h => ?_⟩ <;>
  · have := congrArg String.toList h
    simp [Names.getter, Names.setter, Names.ensureLoaded] at this

theorem Names.getter_ne_member (a : String) :
    Names.getter a ∉ [constructorName, Names.extractUpdates] ∧
      Names.setter a ∉ [constructorName, Names.extractUpdates] := by
  refine ⟨fun h => ?_, fun h => ?_⟩ <;>
  · simp only [List.mem_cons, List.not_mem_nil, or_false] at h
    rcases h with h | h
    · have := congrArg String.toList h
      simp [Names.getter, Names.setter, constructorName] at this
    · have := congrArg String.toList h
      simp [Names.getter, Names.setter, Names.extractUpdates] at this

/-- Only a class with a lazy field of that name is given its accessors. -/
theorem exists_of_accessor_mem {fs : List FieldDef} {name n : String}
    (hname : name = Names.getter n ∨ name = Names.setter n) (h : name ∈ memberNames fs) :
    ∃ f ∈ fs, f.name = n := by
  rcases List.mem_append.1 h with h | h
  · obtain ⟨f, hf, h⟩ := List.mem_flatMap.1 h
    obtain ⟨hgetter, hensure, -⟩ := Names.getter_ne n f.name
    obtain ⟨hsetter, -, hensure'⟩ := Names.getter_ne f.name n
    simp only [List.mem_cons, List.not_mem_nil, or_false] at h
    rcases hname with rfl | rfl <;> rcases h with h | h | h
    · exact absurd h hensure
    · exact ⟨f, hf, (Names.getter_injective h).symm⟩
    · exact absurd h hgetter
    · exact absurd h (Names.getter_ne n f.name).2.2
    · exact absurd h.symm hsetter
    · exact ⟨f, hf, (Names.setter_injective h).symm⟩
  · rcases hname with rfl | rfl
    · exact absurd h (Names.getter_ne_member n).1
    · exact absurd h (Names.getter_ne_member n).2

end Weaving

open Machine

/-! ## Accesses -/

/-- An access to a persisted object. -/
inductive Access where
  | get (r : ResolvedField)
  | set (r : ResolvedField) (v : Value)
  /-- The changes are reported to the object at a place. -/
  | extract (accumulator : Nat)

namespace Access

/-- The lazy field that an access uses. -/
def field? : Access → Option ResolvedField
  | .get r => some r
  | .set r _ => some r
  | .extract _ => none

/-- Whether one of some accesses uses a lazy field. -/
def uses (past : List Access) (r : ResolvedField) : Bool := past.any fun a => a.field? = some r

/-- What was written last to a lazy field; the last access comes first. -/
def lastWrite? (r : ResolvedField) : List Access → Option Value
  | [] => none
  | .set r' v :: past => if r' = r then some v else lastWrite? r past
  | _ :: past => lastWrite? r past

/-- The value of a lazy field after some accesses. -/
def valueAfter (persisted : ResolvedField → Value) (past : List Access) (r : ResolvedField) :
    Value :=
  (lastWrite? r past).getD (persisted r)

/-- What an access gives after some others. -/
def answer (persisted : ResolvedField → Value) (past : List Access) : Access → Option Value
  | .get r => some (valueAfter persisted past r)
  | _ => none

/-- What an access fetches after some others: a field at its first use, and nothing else. -/
def fetches (past : List Access) (a : Access) : List Fetch :=
  match a.field? with
  | some r => if uses past r then [] else [State.fetchOf r]
  | none => []

/-- What accesses fetch one after the other. -/
def fetchLog : List Access → List Access → List Fetch
  | _, [] => []
  | past, a :: rest => a.fetches past ++ fetchLog (a :: past) rest

/-- Makes an access to the object at a place. -/
def perform (p : Program) (h : Hierarchy) (o fuel : Nat) (s : State) :
    Access → Option (Outcome (Option Value))
  | .get r => p.callMethod fuel (.object o) (Names.getter r.field.name) ⟨[], some r.field.type⟩ [] s
  | .set r v =>
    p.callMethod fuel (.object o) (Names.setter r.field.name) ⟨[r.field.type], none⟩ [v] s
  | .extract a => p.callMethod fuel (.object o) Names.extractUpdates
      (Augmentation.extractSignature h) [.object a] s

/-- An access to a lazy field of a level, or one that reports to an accumulator. -/
def Valid (p : Program) (h : Hierarchy) (levels : List ClassDef) (s : State) : Access → Prop
  | .get r => r ∈ h.persistentFields levels ∧ h.isLazy r.field.type = true
  | .set r _ => r ∈ h.persistentFields levels ∧ h.isLazy r.field.type = true
  | .extract a => IsAccumulator p s a

variable {past : List Access} {a : Access} {r : ResolvedField} {persisted : ResolvedField → Value}

theorem uses_cons : uses (a :: past) r = (decide (a.field? = some r) || uses past r) := rfl

theorem lastWrite?_cons_of_ne (ha : a.field? ≠ some r) :
    lastWrite? r (a :: past) = lastWrite? r past := by
  cases a with
  | get _ | extract _ => rfl
  | set r' v => exact if_neg fun he => ha (congrArg some he)

theorem lastWrite?_eq_none (hr : uses past r = false) : lastWrite? r past = none := by
  induction past with
  | nil => rfl
  | cons a past ih =>
    rw [uses_cons, Bool.or_eq_false_iff, decide_eq_false_iff_not] at hr
    rw [lastWrite?_cons_of_ne hr.1, ih hr.2]

theorem valueAfter_of_not_uses (hr : uses past r = false) :
    valueAfter persisted past r = persisted r := by
  rw [valueAfter, lastWrite?_eq_none hr, Option.getD_none]

/-- Only fields that were not used before are fetched. -/
theorem mem_fetchLog {accesses : List Access} {f : Fetch} (hf : f ∈ fetchLog past accesses) :
    ∃ r, f = State.fetchOf r ∧ uses past r = false ∧ ∃ a ∈ accesses, a.field? = some r := by
  induction accesses generalizing past with
  | nil => cases hf
  | cons a accesses ih =>
    rcases List.mem_append.1 hf with hf | hf
    · rw [fetches] at hf
      split at hf
      · next r hr =>
        split at hf
        · cases hf
        · next huses =>
          exact ⟨r, List.mem_singleton.1 hf, by simpa using huses, a, List.mem_cons_self, hr⟩
      · cases hf
    · obtain ⟨r, hr, huses, b, hb, hbr⟩ := ih hf
      rw [uses_cons, Bool.or_eq_false_iff] at huses
      exact ⟨r, hr, huses.2, b, List.mem_cons_of_mem a hb, hbr⟩

/-- No field is fetched twice. -/
theorem nodup_fetchLog {accesses : List Access} {rs : List ResolvedField}
    (hrs : (rs.map (·.field.name)).Nodup)
    (haccesses : ∀ a ∈ accesses, ∀ r, a.field? = some r → r ∈ rs) :
    (fetchLog past accesses).Nodup := by
  induction accesses generalizing past with
  | nil => exact List.nodup_nil
  | cons a accesses ih =>
    have hrest := fun b hb => haccesses b (List.mem_cons_of_mem a hb)
    refine List.nodup_append.2 ⟨?_, ih hrest, ?_⟩
    · rw [fetches]
      split
      · split
        · exact List.nodup_nil
        · exact List.nodup_singleton _
      · exact List.nodup_nil
    · rintro f hf g hg rfl
      have hfirst : f ∈ fetchLog past [a] := by simpa [fetchLog] using hf
      obtain ⟨r, hr, -, b, hb, hbr⟩ := mem_fetchLog hfirst
      obtain rfl := List.mem_singleton.1 hb
      obtain ⟨r', hr', huses, b', hb', hbr'⟩ := mem_fetchLog hg
      have hname : r.field.name = r'.field.name := congrArg Fetch.field (hr.symm.trans hr')
      obtain rfl := List.inj_on_of_nodup_map hrs (haccesses b List.mem_cons_self r hbr)
        (hrest b' hb' r' hbr') hname
      rw [uses_cons, decide_eq_true hbr] at huses
      cases huses

theorem valueAfter_cons_of_ne (ha : a.field? ≠ some r) :
    valueAfter persisted (a :: past) r = valueAfter persisted past r := by
  rw [valueAfter, lastWrite?_cons_of_ne ha, valueAfter]

end Access

/--
After the accesses of `past`, further ones lead from a state to another. They all return, with the
expected answers, and fetch what is expected.
-/
def Serves (p : Program) (h : Hierarchy) (o : Nat) (persisted : ResolvedField → Value) :
    List Access → List Access → State → State → Prop
  | _, [], s, t => s = t
  | past, a :: rest, s, t => ∃ fuel s',
      a.perform p h o fuel s = some ⟨.ok (a.answer persisted past), s'⟩ ∧
      s'.fetches = s.fetches ++ (a.fetches past).toArray ∧
      Serves p h o persisted (a :: past) rest s' t

/-- No method of a level has a marked name. -/
def UnmarkedMethods (levels : List ClassDef) : Prop :=
  ∀ d ∈ levels, ∀ m ∈ d.methods, Names.isSynthetic m.name = false

namespace WovenLineage

variable {input : Archive} {dependencies : List Archive} {w : WovenArchive}
  {built : ClassIndex.Building} {levels : List ClassDef} {c d : ClassDef} {f : FieldDef}

/-- A call of an accessor on an object of the class comes to the level that declares the field. -/
theorem resolve_accessor (hl : WovenLineage input dependencies w built levels c)
    (hmethods : UnmarkedMethods levels) (hd : d ∈ levels) (hf : f ∈ built.hierarchy.lazyFields d)
    {name : String} (hname : name = Names.getter f.name ∨ name = Names.setter f.name)
    {signature : Signature} {d' : ClassDef} {code : Code}
    (hd' : w.program.classes.get? d.name = some d')
    (hcode : Program.codeOf? d' name signature = some code) :
    w.program.resolve c.name name signature = .ok (.code code) := by
  obtain ⟨n, hclimb, hbelow⟩ := Lineage.exists_climb_level hl.wovenProgram hl.lineage hd
  refine Program.resolve_inherited hd' hcode hclimb fun k hk y e' hy he' => ?_
  obtain ⟨e, he, rfl, hne⟩ := hbelow k hk y hy
  obtain ⟨e'', he'', hwoven⟩ := hl.wovenProgram.loaded e (hl.lineage.subset e he)
  obtain rfl : e'' = e' := Option.some.inj (he''.symm.trans he')
  obtain ⟨methods, hmethods', hgrows⟩ := hwoven.grows
  rcases hm : e''.method? name signature with _ | m
  · rw [Program.codeOf?, hm, Option.bind_none]
  exfalso
  rcases hgrows.adds hm with hm | hm
  · obtain ⟨hmem, hmname, -⟩ := ClassDef.mem_of_method? hm
    obtain ⟨m₀, hm₀, hmwoven⟩ := exists_of_forall₂_right hmethods' hmem
    have hmarked : Names.isSynthetic name = true := by
      rcases hname with rfl | rfl
      · exact Names.isSynthetic_getter _
      · exact Names.isSynthetic_setter _
    rw [← hmname, hmwoven.name, hmethods e he m₀ hm₀] at hmarked
    cases hmarked
  · obtain ⟨g, hg, hgname⟩ := exists_of_accessor_mem hname hm
    have hmem {x : ClassDef} {y : FieldDef} (hx : x ∈ levels)
        (hy : y ∈ built.hierarchy.lazyFields x) :
        (⟨x.name, y⟩ : ResolvedField) ∈ built.hierarchy.persistentFields levels := by
      obtain ⟨hdeclared, hpersistent, -⟩ := Hierarchy.mem_lazyFields.1 hy
      exact Hierarchy.mem_persistentFields.2 ⟨x, hx, rfl, hdeclared, hpersistent⟩
    have hsame : (⟨e.name, g⟩ : ResolvedField) = ⟨d.name, f⟩ := List.inj_on_of_nodup_map
      (Hierarchy.nodup_persistentFields hl.distinctFields) (hmem he hg) (hmem hd hf) hgname
    exact hne (hl.distinctNames e (hl.lineage.subset e he) d (hl.lineage.subset d hd)
      (congrArg ResolvedField.declaring hsame))

end WovenLineage

/-! ## What a session keeps -/

/-- The state of a persisted object after some accesses, which began in `s₀`. -/
structure Tracks (h : Hierarchy) (levels : List ClassDef) (o : Nat) (s₀ : State)
    (past : List Access) (t : State) : Prop where
  classes : ∀ id, t.className? id = s₀.className? id
  persisted : t.persisted = s₀.persisted
  inStorage : t.field? (.object o) Names.inStorage = some (.int 1)
  /-- Eager fields can be compared with their shadows. -/
  eager : ∀ r ∈ h.persistentFields levels, h.isLazy r.field.type = false →
    (t.current o r.field).comparable r.field.type = true ∧
      (t.persistedValue o r.field).comparable r.field.type = true
  /-- A lazy field that was used has its value. -/
  used : ∀ r ∈ h.persistentFields levels, h.isLazy r.field.type = true → Access.uses past r = true →
    t.field? (.object o) r.field.name = some (Access.valueAfter s₀.persistedOf past r) ∧
      t.field? (.object o) (Names.loadedFlag r.field.name) = some (.int 1)
  /-- A lazy field that was not used is not there. -/
  unused : ∀ r ∈ h.persistentFields levels, h.isLazy r.field.type = true →
    Access.uses past r = false → ∀ n ∈ parts r, t.field? (.object o) n = none

theorem inStorage_not_mem_parts {r : ResolvedField}
    (hr : Names.isPlatformField r.field.name = false) : Names.inStorage ∉ parts r := by
  have hmarked {n : String} (hn : Names.isSynthetic n = true) : Names.inStorage ≠ n := by
    rintro rfl
    exact absurd hn (by decide)
  rw [mem_parts]
  rintro (he | he | he)
  · rw [← he] at hr
    exact absurd hr (by decide)
  · exact hmarked (Names.isSynthetic_shadow _) he
  · exact hmarked (Names.isSynthetic_loadedFlag _) he

theorem comparable_of_isLazy {h : Hierarchy} {t : FieldType} (ht : h.isLazy t = true) (v : Value) :
    v.comparable t = true := by
  cases t with
  | primitive kind => cases ht
  | reference className => rfl

namespace Tracks

variable {input : Archive} {dependencies : List Archive} {w : WovenArchive}
  {built : ClassIndex.Building} {levels : List ClassDef} {c : ClassDef} {o : Nat}
  {s₀ t t' : State} {past : List Access} {a : Access} {r : ResolvedField}

/-- An access that writes the parts of one lazy field only. -/
theorem update (hl : WovenLineage input dependencies w built levels c)
    (ht : Tracks built.hierarchy levels o s₀ past t)
    (hr : r ∈ built.hierarchy.persistentFields levels) (ha : a.field? = some r)
    (hclasses : ∀ id, t'.className? id = t.className? id) (hpersisted : t'.persisted = t.persisted)
    (hframe : ∀ n ∉ parts r, t'.field? (.object o) n = t.field? (.object o) n)
    (hvalue : t'.field? (.object o) r.field.name =
      some (Access.valueAfter s₀.persistedOf (a :: past) r))
    (hflag : t'.field? (.object o) (Names.loadedFlag r.field.name) = some (.int 1))
    (hlazy : built.hierarchy.isLazy r.field.type = true) :
    Tracks built.hierarchy levels o s₀ (a :: past) t' := by
  have hkeep {r' : ResolvedField} (hr' : r' ∈ built.hierarchy.persistentFields levels)
      (hne : r ≠ r') {n : String} (hn : n ∈ parts r') :
      t'.field? (.object o) n = t.field? (.object o) n := by
    refine hframe n (not_mem_parts (hl.ordinary_of_mem hr').1 (hl.ordinary_of_mem hr).1
      (fun he => hne ?_) hn)
    exact List.inj_on_of_nodup_map (Hierarchy.nodup_persistentFields hl.distinctFields) hr hr'
      he.symm
  have hother {r' : ResolvedField} (hne : r ≠ r') : a.field? ≠ some r' := fun he =>
    hne (Option.some.inj (ha.symm.trans he))
  refine ⟨fun id => (hclasses id).trans (ht.classes id), hpersisted.trans ht.persisted,
    ?_, ?_, ?_, ?_⟩
  · rw [hframe _ (inStorage_not_mem_parts (hl.ordinary_of_mem hr).2), ht.inStorage]
  · intro r' hr' heager
    have hne : r ≠ r' := by
      rintro rfl
      rw [hlazy] at heager
      cases heager
    rw [State.current, State.read, State.persistedValue, State.read,
      hkeep hr' hne (mem_parts.2 (.inl rfl)), hkeep hr' hne (mem_parts.2 (.inr (.inl rfl)))]
    exact ht.eager r' hr' heager
  · intro r' hr' hlazy' huses
    by_cases hne : r = r'
    · subst hne
      exact ⟨hvalue, hflag⟩
    · rw [Access.uses_cons, decide_eq_false (hother hne), Bool.false_or] at huses
      rw [Access.valueAfter_cons_of_ne (hother hne), hkeep hr' hne (mem_parts.2 (.inl rfl)),
        hkeep hr' hne (mem_parts.2 (.inr (.inr rfl)))]
      exact ht.used r' hr' hlazy' huses
  · intro r' hr' hlazy' huses n hn
    rw [Access.uses_cons, Bool.or_eq_false_iff, decide_eq_false_iff_not] at huses
    have hne : r ≠ r' := fun he => huses.1 (he ▸ ha)
    rw [hkeep hr' hne hn]
    exact ht.unused r' hr' hlazy' huses.2 n hn

/-- A use of a lazy field makes sure that the object has it, and fetches it the first time. -/
theorem ensure (hl : WovenLineage input dependencies w built levels c)
    (ht : Tracks built.hierarchy levels o s₀ past t) (ho : o < t.heap.size)
    (hr : r ∈ built.hierarchy.persistentFields levels)
    (hlazy : built.hierarchy.isLazy r.field.type = true) (ha : a.field? = some r) :
    FlagsValid t (.object o) r ∧
      (t.ensure (.object o) r).field? (.object o) r.field.name =
        some (Access.valueAfter s₀.persistedOf past r) ∧
      (t.ensure (.object o) r).field? (.object o) (Names.loadedFlag r.field.name) =
        some (.int 1) ∧
      (∀ n ∉ parts r, (t.ensure (.object o) r).field? (.object o) n = t.field? (.object o) n) ∧
      (t.ensure (.object o) r).fetches = t.fetches ++ (a.fetches past).toArray ∧
      (∀ id, (t.ensure (.object o) r).className? id = t.className? id) ∧
      (t.ensure (.object o) r).persisted = t.persisted := by
  have hstored : t.stored (.object o) = .int 1 := by
    rw [State.stored, State.read, ht.inStorage]
    rfl
  have hfetches : a.fetches past = if Access.uses past r then [] else [State.fetchOf r] := by
    rw [Access.fetches, ha]
  cases huses : Access.uses past r with
  | true =>
    obtain ⟨hvalue, hflag⟩ := ht.used r hr hlazy huses
    have hloaded : t.loaded (.object o) r = .int 1 := by
      rw [State.loaded, State.read, hflag]
      rfl
    rw [State.ensure_of_loaded (by rw [hloaded]; decide), hfetches, huses]
    exact ⟨⟨⟨1, hstored⟩, 1, hloaded⟩, hvalue, hflag, fun _ _ => rfl, by simp, fun _ => rfl, rfl⟩
  | false =>
    have hmissing := ht.unused r hr hlazy huses
    have hloaded : t.loaded (.object o) r = .int 0 := by
      rw [State.loaded, State.read, hmissing _ (mem_parts.2 (.inr (.inr rfl)))]
      rfl
    obtain ⟨hvalue, hflag⟩ := State.field?_load ho (hl.ordinary_of_mem hr).1
    rw [State.ensure_of_missing (by rw [hstored]; decide) hloaded, hfetches, huses,
      Access.valueAfter_of_not_uses huses]
    refine ⟨⟨⟨1, hstored⟩, 0, hloaded⟩, ?_, hflag,
      fun n hn => State.field?_load_of_ne ho fun _ => hn, by simp,
      fun id => State.className?_load id, rfl⟩
    rw [hvalue, State.persistedOf, ht.persisted]
    rfl

theorem get (hl : WovenLineage input dependencies w built levels c)
    (ht : Tracks built.hierarchy levels o s₀ past t) (ho : o < t.heap.size)
    (hr : r ∈ built.hierarchy.persistentFields levels)
    (hlazy : built.hierarchy.isLazy r.field.type = true) :
    Tracks built.hierarchy levels o s₀ (.get r :: past) (t.ensure (.object o) r) := by
  obtain ⟨-, hvalue, hflag, hframe, -, hclasses, hpersisted⟩ := ht.ensure hl ho hr hlazy
    (a := .get r) rfl
  exact ht.update hl hr rfl hclasses hpersisted hframe hvalue hflag hlazy

theorem set (hl : WovenLineage input dependencies w built levels c)
    (ht : Tracks built.hierarchy levels o s₀ past t) (ho : o < t.heap.size)
    (hr : r ∈ built.hierarchy.persistentFields levels)
    (hlazy : built.hierarchy.isLazy r.field.type = true) (v : Value) :
    Tracks built.hierarchy levels o s₀ (.set r v :: past)
      ((t.ensure (.object o) r).write o r.field.name v) := by
  obtain ⟨-, -, hflag, hframe, -, hclasses, hpersisted⟩ := ht.ensure hl ho hr hlazy
    (a := .set r v) rfl
  have ho' : o < (t.ensure (.object o) r).heap.size := by simpa using ho
  refine ht.update hl hr rfl (fun id => ?_) hpersisted (fun n hn => ?_) ?_ ?_ hlazy
  · rw [State.className?_write, hclasses]
  · rw [State.field?_write _ ho', if_neg fun hs => hn (mem_parts.2 (.inl hs.2.symm)), hframe n hn]
  · rw [State.field?_write_self _ ho', Access.valueAfter, Access.lastWrite?, if_pos rfl,
      Option.getD_some]
  · have hname : r.field.name ≠ Names.loadedFlag r.field.name := by
      intro he
      have := (hl.ordinary_of_mem hr).1
      rw [he, Names.isSynthetic_loadedFlag] at this
      cases this
    rw [State.field?_write _ ho', if_neg fun hs => hname hs.2, hflag]

/-- An extraction does not touch the lazy fields themselves. -/
theorem extract (hl : WovenLineage input dependencies w built levels c)
    (ht : Tracks built.hierarchy levels o s₀ past t)
    (hreported : Reported built.hierarchy o (built.hierarchy.persistentFields levels) t t')
    (accumulator : Nat) : Tracks built.hierarchy levels o s₀ (.extract accumulator :: past) t' := by
  have hkeep {n : String} (hn : ∀ m, Names.shadow m ≠ n) :
      t'.field? (.object o) n = t.field? (.object o) n :=
    hreported.others o n fun _ q _ _ => hn q.field.name
  have hplain {r : ResolvedField} (hr : r ∈ built.hierarchy.persistentFields levels) :=
    State.shadow_ne (hl.ordinary_of_mem hr).1
  have hshadow {r : ResolvedField} (hr : r ∈ built.hierarchy.persistentFields levels) :
      t'.field? (.object o) (Names.shadow r.field.name) =
        if t.hasChanged o r then some (t.current o r.field)
        else t.field? (.object o) (Names.shadow r.field.name) := by
    split
    · next hchanged => exact hreported.shadow r hr hchanged
    · next hchanged =>
      refine hreported.others o _ fun _ q hq hq' hs => hchanged ?_
      rwa [← List.inj_on_of_nodup_map (Hierarchy.nodup_persistentFields hl.distinctFields) hq hr
        (Names.shadow_injective hs)]
  have hvalue (r : ResolvedField) :
      Access.valueAfter s₀.persistedOf (.extract accumulator :: past) r =
        Access.valueAfter s₀.persistedOf past r := rfl
  refine ⟨fun id => (hreported.classes id).trans (ht.classes id),
    hreported.persisted.trans ht.persisted, ?_, ?_, ?_, ?_⟩
  · rw [hkeep (State.shadow_ne (by decide)), ht.inStorage]
  · intro r hr heager
    obtain ⟨hcurrent, hpersisted⟩ := ht.eager r hr heager
    refine ⟨by rw [hreported.current_eq (hl.ordinary_of_mem hr).1]; exact hcurrent, ?_⟩
    rw [State.persistedValue, State.read, hshadow hr]
    split
    · exact hcurrent
    · exact hpersisted
  · intro r hr hlazy huses
    rw [hvalue, hkeep (hplain hr), hkeep fun m => Names.shadow_ne_loadedFlag m _]
    exact ht.used r hr hlazy huses
  · intro r hr hlazy huses n hn
    have hmissing := ht.unused r hr hlazy huses
    rcases mem_parts.1 hn with rfl | rfl | rfl
    · rw [hkeep (hplain hr), hmissing _ hn]
    · have hsame : t.hasChanged o r = false := by
        rw [State.hasChanged, State.current, State.read, State.persistedValue, State.read,
          hmissing _ (mem_parts.2 (.inl rfl)), hmissing _ hn]
        exact Value.differs_self (Value.hasKind_ofType _)
      rw [hshadow hr, hsame, hmissing _ hn]
      rfl
    · rw [hkeep fun m => Names.shadow_ne_loadedFlag m _, hmissing _ hn]

end Tracks

namespace WovenLineage

variable {input : Archive} {dependencies : List Archive} {w : WovenArchive}
  {built : ClassIndex.Building} {levels : List ClassDef} {c : ClassDef} {o : Nat}
  {s₀ t : State} {past : List Access} {r : ResolvedField}

/-- The level that declares a lazy field. -/
theorem exists_level (hl : WovenLineage input dependencies w built levels c)
    (hconcrete : ∀ d ∈ levels, d.isInterface = false)
    (hr : r ∈ built.hierarchy.persistentFields levels)
    (hlazy : built.hierarchy.isLazy r.field.type = true) :
    ∃ d ∈ levels, r.declaring = d.name ∧ IsLazyField built.hierarchy input.classes d r.field := by
  obtain ⟨d, hd, hdeclaring, hdeclared, hpersistent⟩ := Hierarchy.mem_persistentFields.1 hr
  exact ⟨d, hd, hdeclaring, hl.lineage.subset d hd,
    Lineage.isStorage hl.wovenProgram hl.lineage hl.storage d hd, hconcrete d hd,
    Hierarchy.mem_lazyFields.2 ⟨hdeclared, hpersistent, hlazy⟩⟩

theorem isStored (hl : WovenLineage input dependencies w built levels c)
    (ho : t.className? o = some c.name) : IsStored w.program t o := by
  obtain ⟨root, n, hroot, hclimb⟩ := Lineage.exists_climb hl.wovenProgram hl.lineage
  refine ⟨c.name, ho, root, n, ?_, hclimb⟩
  rw [hl.wovenProgram.config]
  exact hroot

/-- One access succeeds, as expected, and is kept track of. -/
theorem access (hl : WovenLineage input dependencies w built levels c)
    (hconcrete : ∀ d ∈ levels, d.isInterface = false) (hno : NoHookMethods input.classes)
    (hmethods : UnmarkedMethods levels) (ho : s₀.className? o = some c.name)
    (ht : Tracks built.hierarchy levels o s₀ past t) {a : Access}
    (ha : a.Valid w.program built.hierarchy levels s₀) :
    ∃ fuel t', a.perform w.program built.hierarchy o fuel t =
        some ⟨.ok (a.answer s₀.persistedOf past), t'⟩ ∧
      t'.fetches = t.fetches ++ (a.fetches past).toArray ∧
      Tracks built.hierarchy levels o s₀ (a :: past) t' := by
  have hclass : t.className? o = some c.name := (ht.classes o).trans ho
  have hsize : o < t.heap.size := State.lt_size_of_className? hclass
  have hstored : ∀ o', Value.object o = .object o' → t.stored (.object o) ≠ .int 0 →
      IsStored w.program t o' := fun o' he _ => Value.object.inj he ▸ hl.isStored hclass
  cases a with
  | get r =>
    obtain ⟨hr, hlazy⟩ := ha
    obtain ⟨d, hd, hdeclaring, hfield⟩ := hl.exists_level hconcrete hr hlazy
    obtain ⟨d', hd', -, hcode, -⟩ := hl.wovenProgram.exists_accessors hfield
    obtain ⟨hflags, hvalue, -, -, hfetches, -⟩ := ht.ensure hl hsize hr hlazy (a := .get r) rfl
    have hresolve := hl.resolve_accessor hmethods hd hfield.declared (.inl rfl) hd' hcode
    obtain ⟨_, f⟩ := r
    obtain rfl := hdeclaring
    have hgives : w.program.Gives
        ⟨.virtual, c.name, Names.getter f.name, ⟨[], some f.type⟩, [.object o]⟩ t _ :=
      hl.wovenProgram.gives_getter hno hfield hflags hstored
        ((Program.callee_virtual hclass).trans hresolve) rfl
    obtain ⟨fuel, hfuel⟩ := hgives.callMethod hclass
    refine ⟨fuel, _, ?_, hfetches, ht.get hl hsize hr hlazy⟩
    rw [State.read, hvalue, Option.getD_some] at hfuel
    exact hfuel
  | set r v =>
    obtain ⟨hr, hlazy⟩ := ha
    obtain ⟨d, hd, hdeclaring, hfield⟩ := hl.exists_level hconcrete hr hlazy
    obtain ⟨d', hd', -, -, hcode⟩ := hl.wovenProgram.exists_accessors hfield
    obtain ⟨hflags, -, -, -, hfetches, -⟩ := ht.ensure hl hsize hr hlazy (a := .set r v) rfl
    have hresolve := hl.resolve_accessor hmethods hd hfield.declared (.inr rfl) hd' hcode
    obtain ⟨_, f⟩ := r
    obtain rfl := hdeclaring
    have hgives : w.program.Gives
        ⟨.virtual, c.name, Names.setter f.name, ⟨[f.type], none⟩, [.object o, v]⟩ t _ :=
      hl.wovenProgram.gives_setter hno hfield hflags hstored rfl
        ((Program.callee_virtual hclass).trans hresolve) rfl
    rw [State.place?_object hsize] at hgives
    obtain ⟨fuel, hfuel⟩ := hgives.callMethod hclass
    exact ⟨fuel, _, hfuel, hfetches, ht.set hl hsize hr hlazy v⟩
  | extract accumulator =>
    have hsynthetic := fun r hr => (hl.ordinary_of_mem (r := r) hr).1
    have haccumulator : IsAccumulator w.program t accumulator := by
      rw [IsAccumulator, funext ht.classes]
      exact ha
    obtain ⟨t', hextract, hreported⟩ := extract_reported (h := built.hierarchy) hsize
      (Hierarchy.nodup_persistentFields hl.distinctFields) hsynthetic fun r hr => by
        cases hlazy : built.hierarchy.isLazy r.field.type with
        | true => exact ⟨comparable_of_isLazy hlazy _, comparable_of_isLazy hlazy _⟩
        | false => exact ht.eager r hr hlazy
    have hgives := hl.gives_extract hconcrete hclass fun _ => ⟨hno, haccumulator⟩
    rw [hextract] at hgives
    obtain ⟨fuel, hfuel⟩ := hgives.callMethod hclass
    refine ⟨fuel, t', hfuel, ?_, ht.extract hl hreported accumulator⟩
    rw [hreported.fetches]
    exact Array.append_empty.symm

/-- A session goes on as long as accesses are made. -/
theorem serves (hl : WovenLineage input dependencies w built levels c)
    (hconcrete : ∀ d ∈ levels, d.isInterface = false) (hno : NoHookMethods input.classes)
    (hmethods : UnmarkedMethods levels) (ho : s₀.className? o = some c.name)
    (ht : Tracks built.hierarchy levels o s₀ past t) {accesses : List Access}
    (haccesses : ∀ a ∈ accesses, a.Valid w.program built.hierarchy levels s₀) :
    ∃ t', Serves w.program built.hierarchy o s₀.persistedOf past accesses t t' ∧
      t'.fetches = t.fetches ++ (Access.fetchLog past accesses).toArray := by
  induction accesses generalizing past t with
  | nil => exact ⟨t, rfl, Array.append_empty.symm⟩
  | cons a accesses ih =>
    obtain ⟨ha, haccesses⟩ := List.forall_mem_cons.1 haccesses
    obtain ⟨fuel, t', hperform, hfetches, ht'⟩ := hl.access hconcrete hno hmethods ho ht ha
    obtain ⟨t'', hserves, hfetches'⟩ := ih ht' haccesses
    refine ⟨t'', ⟨fuel, t', hperform, hfetches, hserves⟩, ?_⟩
    rw [hfetches', hfetches, Access.fetchLog, Array.append_assoc]
    exact congrArg (t.fetches ++ ·) (List.append_toArray _ _)

/-- A session begins when an object was deserialized. -/
theorem tracks_restored (hl : WovenLineage input dependencies w built levels c)
    {fields : List (FieldDef × Value)}
    (hfields : fields.map (·.1) = levels.flatMap built.hierarchy.eagerFields)
    (hkinds : ∀ g ∈ fields, g.2.comparable g.1.type = true) {s : State}
    (hnew : ∀ n, s.field? (.object o) n = none) {reference : Value}
    (hrestored : Restored o reference fields s s₀) :
    Tracks built.hierarchy levels o s₀ [] s₀ := by
  refine ⟨fun _ => rfl, rfl, hrestored.inStorage, fun r hr heager => ?_,
    fun _ _ _ huses => (by cases huses), fun r hr hlazy _ n hn => ?_⟩
  · obtain ⟨hshadow, hdefault | ⟨g, hg, hgr, hvalue⟩⟩ :=
      hl.current_restored hfields hnew hrestored hr
    · rw [hshadow, hdefault]
      exact ⟨Value.comparable_of_hasKind (Value.hasKind_ofType _),
        Value.comparable_of_hasKind (Value.hasKind_ofType _)⟩
    · rw [hshadow, hvalue, ← hgr]
      exact ⟨hkinds g hg, hkinds g hg⟩
  · rw [hl.field?_lazy hfields hrestored hr hlazy hn, hnew]

/--
**Accessors fetch at most once and read what was written.** An object is deserialized, with numbers
of the kinds of their fields. Then accesses to its lazy fields and extractions all succeed, in any
order: a lazy field is fetched at its first use and never again, and a read gives what was written
last, or the persisted value.
-/
theorem construct_serves (hl : WovenLineage input dependencies w built levels c)
    (hconcrete : ∀ d ∈ levels, d.isInterface = false) (hno : NoHookMethods input.classes)
    (hmethods : UnmarkedMethods levels) {k : Classification}
    (hk : built.hierarchy.classify c = .ok k) (s : State) {reference : Value}
    (hreference : reference.size = 1) {values : List Value}
    (hsizes : values.map Value.size = k.allEager.map (·.type.size))
    (hkinds : ∀ g ∈ k.allEager.zip values, g.2.comparable g.1.type = true) :
    ∃ fuel s₀, w.program.construct fuel c.name
        ⟨Augmentation.constructorParams built.hierarchy k.allEager, none⟩ (reference :: values) s =
        some ⟨.ok (.object s.heap.size), s₀⟩ ∧
      Restored s.heap.size reference (k.allEager.zip values) (s.allocate c.name).2 s₀ ∧
      ∀ accesses : List Access,
        (∀ a ∈ accesses, a.Valid w.program built.hierarchy levels s₀) →
        ∃ t, Serves w.program built.hierarchy s.heap.size s.persistedOf [] accesses s₀ t ∧
          t.fetches = s.fetches ++ (Access.fetchLog [] accesses).toArray ∧
          (Access.fetchLog [] accesses).Nodup := by
  obtain ⟨hfields, fuel, s₀, hconstruct, hrestored⟩ := hl.exists_construct hconcrete hk s hreference
    hsizes
  refine ⟨fuel, s₀, hconstruct, hrestored, fun accesses haccesses => ?_⟩
  have ho : s₀.className? s.heap.size = some c.name := by
    rw [hrestored.classes, State.className?_allocate, if_pos rfl]
  have hpersisted : s₀.persistedOf = s.persistedOf := by
    funext r
    rw [State.persistedOf, hrestored.persisted]
    rfl
  obtain ⟨t, hserves, hfetches⟩ := hl.serves hconcrete hno hmethods ho
    (hl.tracks_restored hfields hkinds (s.field?_new c.name) hrestored) haccesses
  rw [hpersisted] at hserves
  rw [hrestored.fetches] at hfetches
  refine ⟨t, hserves, hfetches, Access.nodup_fetchLog
    (Hierarchy.nodup_persistentFields (h := built.hierarchy) hl.distinctFields) ?_⟩
  intro a ha r hr
  have hvalid := haccesses a ha
  cases a with
  | get r' | set r' _ => exact Option.some.inj hr ▸ hvalid.1
  | extract _ => cases hr

end WovenLineage

namespace Bank

def owner : ResolvedField := ⟨"bank.Account", ⟨"owner", .reference "lang.String", .none⟩⟩

def next : ResolvedField := ⟨"bank.Savings", ⟨"next", .reference "bank.Account", .none⟩⟩

/-- An accumulator, and the persisted value of one field. -/
def beginning : State where
  heap := #[⟨"runtime.Updates", {}⟩]
  persisted := ({} : Table (String × String) Value).set ("bank.Account", "owner") (.str "ann")

/-- Lazy fields of both levels are read and written between extractions. -/
def accesses : List Access :=
  [.get owner, .extract 0, .set next (.object 1), .extract 0, .get next, .get owner]

theorem serves_savings : ∃ w fuel s₀ t, weaveArchive archive [] {} = .ok w ∧
    w.program.construct fuel "bank.Savings" constructorSignature [.str "id", .long 7, nan]
      beginning = some ⟨.ok (.object 1), s₀⟩ ∧
    Serves w.program index.hierarchy 1 beginning.persistedOf [] accesses s₀ t ∧
    t.fetches = #[State.fetchOf owner, State.fetchOf next] := by
  obtain ⟨w, hl, -⟩ := exists_wovenLineage
  have hclasses := woven.1
  have hno : NoHookMethods archive.classes := by
    rw [hclasses]
    unfold NoHookMethods
    decide
  have hk : index.hierarchy.classify savings = .ok ⟨[[⟨"balance", .primitive .long, .none⟩],
      [⟨"rate", .primitive .double, .none⟩]], [next.field]⟩ := by
    decide +kernel
  obtain ⟨fuel, s₀, hconstruct, hrestored, hserves⟩ := WovenLineage.construct_serves hl (by decide)
    hno (by unfold UnmarkedMethods; decide) hk beginning (show (Value.str "id").size = 1 from rfl)
    (show [Value.long 7, nan].map Value.size = _ from rfl) (by decide)
  have haccumulator : IsAccumulator w.program s₀ 0 := by
    refine ⟨"runtime.Updates", (hrestored.classes 0).trans (by decide), 0, ?_⟩
    rw [hl.wovenProgram.config]
    rfl
  have hlazy : ∀ r ∈ [owner, next], r ∈ index.hierarchy.persistentFields [account, savings] ∧
      index.hierarchy.isLazy r.field.type = true := by
    decide +kernel
  have howner := hlazy owner (by simp)
  have hnext := hlazy next (by simp)
  obtain ⟨t, ht, hfetches, -⟩ := hserves accesses <| by
    simp only [accesses, List.forall_mem_cons]
    exact ⟨howner, haccumulator, hnext, haccumulator, hnext, howner, by simp⟩
  exact ⟨w, fuel, s₀, t, hl.woven, hconstruct, ht, hfetches.trans (by decide)⟩

end Bank

namespace Forgery

/-- A class with a lazy field. -/
def upper : ClassDef where
  name := "a.B"
  superclass := some "runtime.Storage"
  fields := [⟨"x", .reference "a.B", .none⟩]

/-- A class with a method of its own in the place of an inherited accessor. -/
def lower : ClassDef where
  name := "a.C"
  superclass := some "a.B"
  methods := [{
    name := Names.getter "x"
    signature := ⟨[], some (.reference "a.B")⟩
    code := some [.throw] }]

/-- The archive of both. -/
def archive : Archive where
  entries := [⟨"a/B.class", upper.toBytes⟩, ⟨"a/C.class", lower.toBytes⟩]
  distinct := by decide

/-- The index of the archive. -/
def index : ClassIndex.Building where
  index := ⟨[⟨upper, upper.toBytes⟩, ⟨lower, lower.toBytes⟩]⟩

theorem woven : archive.classes = [upper, lower] ∧ ClassIndex.build [archive] = .ok index ∧
    wovenClasses archive =
      .ok [wovenResult index.hierarchy upper, wovenResult index.hierarchy lower] :=
  woven_of_stored (by decide) rfl (by decide) (by decide) (by decide +kernel)

/-- The lineage of the lower class. -/
theorem exists_wovenLineage : ∃ w, WovenLineage archive [] w index [upper, lower] lower ∧
    w.program = Program.ofClasses
      [wovenResult index.hierarchy upper, wovenResult index.hierarchy lower] :=
  exists_wovenLineage_pair woven (by decide) (by decide) rfl (by decide) rfl (by decide +kernel)
    (by decide +kernel) (by decide) (by decide)

end Forgery

/-- Deserializes an object beside an accumulator and gives the result of an access to it. -/
def firstAccess (p : Program) (h : Hierarchy) (className : String) (params : List FieldType)
    (args : List Value) (a : Access) : Option (Except Fault (Option Value)) := do
  let out ← p.construct 100 className ⟨.reference "runtime.StorageReference" :: params, none⟩
    (.str "id" :: args) Bank.beginning
  let accessed ← a.perform p h 1 100 out.state
  return accessed.result

/-- A lazy field of an interface has no accessors, a number of another kind stops an extraction,
and a lower class can put a method of its own in the place of an accessor. -/
theorem construct_serves_exceptions :
    (∃ w, WovenLineage Library.archive [] w Library.index [Library.document, Library.page]
        Library.page ∧
      firstAccess w.program Library.index.hierarchy "lib.Page" [.primitive .int] [.int 7]
        (.get ⟨"lib.Document", ⟨"text", .reference "lang.String", .none⟩⟩) =
          some (.error (.noSuchMethod "runtime.Storage.§get_text"))) ∧
    (∃ w, WovenLineage Bank.archive [] w Bank.index [Bank.account, Bank.savings] Bank.savings ∧
      firstAccess w.program Bank.index.hierarchy "bank.Savings"
        [.primitive .long, .primitive .double] [.long 7, .long 7] (.extract 0) =
          some (.error (.typeMismatch "float or double"))) ∧
    ∃ w, WovenLineage Forgery.archive [] w Forgery.index [Forgery.upper, Forgery.lower]
        Forgery.lower ∧
      firstAccess w.program Forgery.index.hierarchy "a.C" [] []
        (.get ⟨"a.B", ⟨"x", .reference "a.B", .none⟩⟩) = some (.error .thrown) := by
  obtain ⟨w₁, hl₁, hprogram₁⟩ := Library.exists_wovenLineage
  obtain ⟨w₂, hl₂, hprogram₂⟩ := Bank.exists_wovenLineage
  obtain ⟨w₃, hl₃, hprogram₃⟩ := Forgery.exists_wovenLineage
  refine ⟨⟨w₁, hl₁, ?_⟩, ⟨w₂, hl₂, ?_⟩, w₃, hl₃, ?_⟩
  · rw [hprogram₁]
    decide +kernel
  · rw [hprogram₂]
    decide +kernel
  · rw [hprogram₃]
    decide +kernel

end StorageWeave
