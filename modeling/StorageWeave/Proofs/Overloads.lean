import StorageWeave.Proofs.Dispatch

/-!
# Distinct members

A class whose fields differ by name and whose methods differ by name and signature is woven to one
whose fields differ again. What is added never meets a member that is there. The methods differ
again unless an entry is overloaded with the very signature that it is widened to, by a method that
is no entry and so keeps it (`weaveClass_distinct_iff`).
-/

namespace StorageWeave

open Bytecode Weaving

namespace Bytecode

namespace ClassDef

/-- The fields differ by their names. -/
def DistinctFields (c : ClassDef) : Prop := (c.fields.map FieldDef.name).Nodup

/-- The methods differ by their names and signatures. -/
def DistinctMethods (c : ClassDef) : Prop := (c.methods.map MethodDef.key).Nodup

instance (c : ClassDef) : Decidable c.DistinctFields := inferInstanceAs (Decidable (List.Nodup _))

instance (c : ClassDef) : Decidable c.DistinctMethods := inferInstanceAs (Decidable (List.Nodup _))

end ClassDef

end Bytecode

namespace Weaving

/-! ## Adding members -/

/-- `c'` has the members of `c` and others that meet none. -/
structure KeepsApart (c c' : ClassDef) : Prop where
  fields : c.DistinctFields → c'.DistinctFields
  methods : c'.DistinctMethods ↔ c.DistinctMethods

/-- **The members of a storage class** meet none that is there. -/
theorem Augmentation.addMembers_apart {h : Hierarchy} {c : ClassDef} {k : Classification}
    {d d' : Draft} (hadd : addMembers h c k d = .ok d') : KeepsApart d.toClass d'.toClass := by
  obtain ⟨added, -, hfields, hmethods, hd'⟩ := addMembers_eq_ok hadd
  rw [hd']
  constructor
  · intro hdistinct
    rw [ClassDef.DistinctFields, List.map_append]
    exact (Clashes.nodup_append_iff hfields).2 hdistinct
  · rw [ClassDef.DistinctMethods, List.map_append]
    exact Clashes.nodup_append_iff hmethods

/-! ## Widened signatures -/

theorem Config.widen_injective (config : Config) {s t : Signature}
    (h : config.widen s = config.widen t) : s = t := by
  have hparams := congrArg Signature.params h
  have hret := congrArg Signature.ret h
  simp only [widen, Signature.withParam, List.append_cancel_right_eq] at hparams hret
  cases s
  cases t
  simp_all

namespace Hierarchy

/-- A method is an entry at a class. -/
def EntryAt (h : Hierarchy) (name : String) (signature : Signature) (x : String) : Prop :=
  ∃ role, (Oracle.exact h).role h.config ⟨x, name, signature⟩ = .ok role ∧ role.isEntry = true

theorem entryAt_iff {h : Hierarchy} {name x : String} {signature : Signature} {role : Role}
    (hrole : (Oracle.exact h).role h.config ⟨x, name, signature⟩ = .ok role) :
    h.EntryAt name signature x ↔ role.isEntry = true := by
  constructor
  · rintro ⟨role', hrole', hentry⟩
    cases hrole.symm.trans hrole'
    exact hentry
  · exact fun hentry => ⟨role, hrole, hentry⟩

variable (h : Hierarchy) (c : ClassDef)

open Classical in
/-- The key of a method of a class after weaving. -/
noncomputable def wovenKey (m : MethodDef) : String × Signature :=
  (m.name, if h.EntryAt m.name m.signature c.name then h.config.widen m.signature
    else m.signature)

/-- An entry of a class has an overload that is no entry, with its name and widened signature. -/
def WidensOnto : Prop :=
  ∃ entry ∈ c.methods, ∃ other ∈ c.methods, other.name = entry.name ∧
    other.signature = h.config.widen entry.signature ∧
    h.EntryAt entry.name entry.signature c.name ∧ ¬ h.EntryAt other.name other.signature c.name

variable {h c}

/-- Two methods of different keys come to the same one if one is widened onto the other. -/
theorem wovenKey_injOn_iff (hmethods : c.DistinctMethods) :
    (∀ m ∈ c.methods, ∀ m' ∈ c.methods, h.wovenKey c m = h.wovenKey c m' → m = m') ↔
      ¬ h.WidensOnto c := by
  have hinj := List.inj_on_of_nodup_map hmethods
  have hmixed {m m' : MethodDef} (hm : m ∈ c.methods) (hm' : m' ∈ c.methods)
      (hname : m'.name = m.name) (hsignature : m'.signature = h.config.widen m.signature)
      (hentry : h.EntryAt m.name m.signature c.name)
      (hother : ¬ h.EntryAt m'.name m'.signature c.name) : h.WidensOnto c :=
    ⟨m, hm, m', hm', hname, hsignature, hentry, hother⟩
  constructor
  · rintro hkeys ⟨entry, hentry, other, hother, hname, hsignature, hmarked, hplain⟩
    have hsame : entry = other := by
      refine hkeys entry hentry other hother ?_
      rw [wovenKey, wovenKey, if_pos hmarked, if_neg hplain, hname, hsignature]
    exact hplain (hsame ▸ hmarked)
  · intro hnone m hm m' hm' hkey
    obtain ⟨hname, hsignature⟩ := Prod.mk.inj hkey
    refine hinj hm hm' (Prod.ext hname ?_)
    split at hsignature
    · next hentry =>
      split at hsignature
      · exact h.config.widen_injective hsignature
      · next hplain => exact absurd (hmixed hm hm' hname.symm hsignature.symm hentry hplain) hnone
    · next hplain =>
      split at hsignature
      · next hentry => exact absurd (hmixed hm' hm hname hsignature hentry hplain) hnone
      · exact hsignature

end Hierarchy

theorem map_key_woven {h : Hierarchy} {c : ClassDef} {methods : List MethodDef}
    {ms : List WovenMethod}
    (hms : List.Forall₂ (fun m wm => MethodWeaver.weave h (.exact h) c m = .ok wm) methods ms) :
    (ms.map (·.method)).map MethodDef.key = methods.map (h.wovenKey c) := by
  induction hms with
  | nil => rfl
  | @cons m wm methods ms hm _ ih =>
    obtain ⟨role, hrole, hname, hsignature, -⟩ := MethodWeaver.exists_role hm
    have hkey : wm.method.key = h.wovenKey c m := by
      simp only [MethodDef.key, Hierarchy.wovenKey, hname, hsignature, Role.signature,
        Hierarchy.entryAt_iff hrole]
    rw [List.map_cons, List.map_cons, List.map_cons, hkey, ih]

end Weaving

/--
**Members stay distinct.** A class with distinct fields and methods is woven to one with distinct
fields, and its methods are distinct exactly if no entry is widened onto the signature of another
method that keeps it.
-/
theorem weaveClass_distinct_iff {h : Hierarchy} {c : ClassDef} {w : WovenClass}
    (hfields : c.DistinctFields) (hmethods : c.DistinctMethods) (hw : weaveClass h c = .ok w) :
    w.result.DistinctFields ∧ (w.result.DistinctMethods ↔ ¬ h.WidensOnto c) := by
  obtain ⟨ms, hms, hresult⟩ :=
    ClassWeaver.exists_methods ((ClassWeaver.follows_weave h c).run' hw)
  have hapart : KeepsApart { c with methods := ms.map (·.method) } w.result := by
    split at hresult
    · obtain ⟨k, d, -, hresult, hd⟩ := hresult
      rw [hresult]
      simpa only [Draft.toClass_ofClass] using Augmentation.addMembers_apart hd
    · rw [hresult]
      exact ⟨id, .rfl⟩
  refine ⟨hapart.fields hfields, hapart.methods.trans ?_⟩
  rw [ClassDef.DistinctMethods, map_key_woven hms,
    List.nodup_map_iff_inj_on (List.Nodup.of_map _ hmethods)]
  exact Hierarchy.wovenKey_injOn_iff hmethods

namespace Kiosk

/-- A contract with an entry and an overload of it that is no entry. -/
def kiosk (overload : List FieldType) : ClassDef where
  name := "shop.Kiosk"
  superclass := some "runtime.Contract"
  fields := [⟨"owner", .reference "lang.String", .none⟩]
  methods := [
    { name := "sell"
      signature := .void
      annotations := [⟨"runtime.Entry", none⟩]
      code := some [.return none] },
    { name := "sell"
      signature := ⟨overload, none⟩
      code := some [.return none] }]

def hierarchy (overload : List FieldType) : Hierarchy :=
  ⟨⟨[⟨kiosk overload, (kiosk overload).toBytes⟩]⟩, {}⟩

def number : List FieldType := [.primitive .int]

def contract : List FieldType := [.reference "runtime.Contract"]

/-- An overload that takes a number stays apart from the entry. -/
theorem sell_distinct : (kiosk number).DistinctFields ∧ (kiosk number).DistinctMethods ∧
    ∃ w, weaveClass (hierarchy number) (kiosk number) = .ok w ∧
      w.result.DistinctFields ∧ w.result.DistinctMethods := by
  obtain ⟨w, hw⟩ : ∃ w, weaveClass (hierarchy number) (kiosk number) = .ok w :=
    exists_eq_ok_of_isOk (by decide +kernel)
  obtain ⟨hfields, hmethods⟩ := weaveClass_distinct_iff (by decide) (by decide) hw
  refine ⟨by decide, by decide, w, hw, hfields, hmethods.2 ?_⟩
  have hnone : ∀ m ∈ (kiosk number).methods, ∀ m' ∈ (kiosk number).methods,
      m'.signature ≠ (hierarchy number).config.widen m.signature := by
    decide
  rintro ⟨entry, hentry, other, hother, -, hsignature, -⟩
  exact hnone entry hentry other hother hsignature

/-- An overload that takes a contract meets the entry, which is given one as a parameter. -/
theorem sell_meets_overload : (kiosk contract).DistinctFields ∧ (kiosk contract).DistinctMethods ∧
    ∃ w, weaveClass (hierarchy contract) (kiosk contract) = .ok w ∧ ¬ w.result.DistinctMethods :=
  ⟨by decide, by decide, exists_eq_ok_of_any (by decide +kernel)⟩

end Kiosk

end StorageWeave
