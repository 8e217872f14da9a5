import Mathlib.Data.List.Nodup
import StorageWeave.Weaving.Augmentation

/-!
# Additions to a class

Members are added to a class one after the other, fields and methods in turn, and each must be new.
Here they are one list of additions, and what a list of additions makes of a class is said at once
(`Addition.foldlM_addTo_eq_ok_iff`): its fields and methods go behind those of the class, unless one
of them clashes with an earlier one.
-/

namespace StorageWeave

open Bytecode

namespace Weaving

/-! ## Computations that succeed -/

/-- A computation that succeeds does so step by step. -/
theorem bind_eq_ok {ε α β : Type} {x : Except ε α} {f : α → Except ε β} {b : β} :
    x >>= f = .ok b ↔ ∃ a, x = .ok a ∧ f a = .ok b := by
  cases x with
  | error e => simp [bind, Except.bind]
  | ok a => simp [bind, Except.bind]

theorem exists_eq_ok_of_isOk {ε α : Type} {x : Except ε α} (h : x.isOk = true) :
    ∃ a, x = .ok a := by
  cases x with
  | error e => cases h
  | ok a => exact ⟨a, rfl⟩

/-- A computation that succeeds with a result that has a property, as it can be computed. -/
theorem exists_eq_ok_of_any {ε α : Type} {x : Except ε α} {P : α → Prop} [DecidablePred P]
    (h : x.toOption.any (fun a => decide (P a)) = true) : ∃ a, x = .ok a ∧ P a := by
  cases x with
  | error e => cases h
  | ok a => exact ⟨a, rfl, of_decide_eq_true h⟩

theorem forall₂_of_mapM {ε α β : Type} {f : α → Except ε β} {as : List α} {bs : List β}
    (hf : as.mapM f = .ok bs) : List.Forall₂ (fun a b => f a = .ok b) as bs := by
  induction as generalizing bs with
  | nil =>
    cases hf
    exact .nil
  | cons a as ih =>
    rw [List.mapM_cons] at hf
    obtain ⟨b, hb, hf⟩ := bind_eq_ok.1 hf
    obtain ⟨bs, hbs, hf⟩ := bind_eq_ok.1 hf
    cases hf
    exact .cons hb (ih hbs)

theorem mapM_eq_ok_of_forall₂ {ε α β : Type} {f : α → Except ε β} {as : List α} {bs : List β}
    (hf : List.Forall₂ (fun a b => f a = .ok b) as bs) : as.mapM f = .ok bs := by
  induction hf with
  | nil => rfl
  | cons hab _ ih =>
    rw [List.mapM_cons, hab, ih]
    rfl

theorem exists_of_forall₂_right {α β : Type} {R : α → β → Prop} {as : List α} {bs : List β}
    (h : List.Forall₂ R as bs) {b : β} (hb : b ∈ bs) : ∃ a ∈ as, R a b := by
  induction h with
  | nil => cases hb
  | cons hab _ ih =>
    rcases List.mem_cons.1 hb with rfl | hb
    · exact ⟨_, List.mem_cons_self, hab⟩
    · obtain ⟨a, ha, hr⟩ := ih hb
      exact ⟨a, List.mem_cons_of_mem _ ha, hr⟩

end Weaving

/-! ## Clashes -/

/-- One of the added keys is old, or was added before. -/
def Clashes {κ : Type} (old added : List κ) : Prop :=
  ∃ before a after, added = before ++ a :: after ∧ a ∈ old ++ before

namespace Clashes

variable {κ : Type} {old added : List κ} {a : κ}

theorem not_nil : ¬ Clashes old [] := by
  rintro ⟨before, a, after, hsplit, -⟩
  simp at hsplit

theorem not_cons_iff :
    ¬ Clashes old (a :: added) ↔ a ∉ old ∧ ¬ Clashes (old ++ [a]) added := by
  constructor
  · refine fun hno => ⟨fun ha => hno ⟨[], a, added, rfl, by simpa using ha⟩, ?_⟩
    rintro ⟨before, b, after, rfl, hb⟩
    exact hno ⟨a :: before, b, after, rfl, by simpa using hb⟩
  · rintro ⟨ha, hno⟩ ⟨before, b, after, hsplit, hb⟩
    cases before with
    | nil =>
      obtain ⟨rfl, -⟩ := List.cons.inj hsplit
      exact ha (by simpa using hb)
    | cons a' before =>
      obtain ⟨rfl, hrest⟩ := List.cons.inj hsplit
      exact hno ⟨before, b, after, hrest, by simpa using hb⟩

theorem append (hclash : Clashes old added) (more : List κ) : Clashes old (added ++ more) := by
  obtain ⟨before, a, after, rfl, ha⟩ := hclash
  exact ⟨before, a, after ++ more, by simp, ha⟩

/-- Keys do not clash if they are new and different. -/
theorem not_iff : ¬ Clashes old added ↔ added.Nodup ∧ ∀ a ∈ added, a ∉ old := by
  induction added generalizing old with
  | nil => simp [not_nil]
  | cons a added ih =>
    rw [not_cons_iff, ih, List.nodup_cons, List.forall_mem_cons]
    simp only [List.mem_append, List.mem_singleton, not_or]
    constructor
    · rintro ⟨ha, hnodup, hnew⟩
      exact ⟨⟨fun hmem => (hnew a hmem).2 rfl, hnodup⟩, ha, fun b hb => (hnew b hb).1⟩
    · rintro ⟨⟨hmem, hnodup⟩, ha, hnew⟩
      refine ⟨ha, hnodup, fun b hb => ⟨hnew b hb, ?_⟩⟩
      rintro rfl
      exact hmem hb

/-- What does not clash keeps apart what was. -/
theorem nodup_append_iff (hno : ¬ Clashes old added) : (old ++ added).Nodup ↔ old.Nodup := by
  obtain ⟨hnodup, hnew⟩ := not_iff.1 hno
  rw [List.nodup_append]
  refine ⟨fun h => h.1, fun h => ⟨h, hnodup, ?_⟩⟩
  rintro a ha b hb rfl
  exact hnew a hb ha

instance [DecidableEq κ] : Decidable (Clashes old added) :=
  decidable_of_iff (¬ (added.Nodup ∧ ∀ a ∈ added, a ∉ old)) (by rw [← not_iff, not_not])

end Clashes

namespace Bytecode

/-- What tells the methods of a class apart. -/
def MethodDef.key (m : MethodDef) : String × Signature := (m.name, m.signature)

/-- Methods that do not clash are found behind those of a class. -/
theorem ClassDef.method?_of_mem_added {c : ClassDef} {fields : List FieldDef}
    {added : List MethodDef}
    (hno : ¬ Clashes (c.methods.map MethodDef.key) (added.map MethodDef.key)) {m : MethodDef}
    (hm : m ∈ added) :
    method? { c with fields, methods := c.methods ++ added } m.name m.signature = some m := by
  obtain ⟨hnodup, hnew⟩ := Clashes.not_iff.1 hno
  have hsome :
      (method? { c with fields, methods := c.methods ++ added } m.name m.signature).isSome :=
    List.find?_isSome.2 ⟨m, List.mem_append_right _ hm, by simp [MethodDef.isNamed]⟩
  obtain ⟨m', hm'⟩ := Option.isSome_iff_exists.1 hsome
  obtain ⟨hmem, hname, hsignature⟩ := mem_of_method? hm'
  have hkey : m'.key = m.key := Prod.ext hname hsignature
  refine hm'.trans (congrArg some ?_)
  rcases List.mem_append.1 hmem with hold | hadded
  · exact absurd (hkey ▸ List.mem_map_of_mem hold) (hnew m.key (List.mem_map_of_mem hm))
  · exact List.inj_on_of_nodup_map hnodup hadded hm hkey

end Bytecode

namespace Weaving

/-! ## Additions -/

/-- A member that is added to a class: a field, or a method that has to be made first. -/
inductive Addition where
  | field (f : FieldDef)
  | method (made : Except WeaveError MethodDef)

namespace Addition

/-- Adds a member to a draft. -/
def addToDraft (d : Draft) : Addition → Except WeaveError Draft
  | .field f => d.addField f
  | .method made => do d.addMethod (← made)

/-- Adds a member to a class that has none like it. -/
def addTo (c : ClassDef) : Addition → Except WeaveError ClassDef
  | .field f =>
    if (c.field? f.name).isSome then .error (.duplicateMember c.name f.name)
    else .ok { c with fields := c.fields ++ [f] }
  | .method made => do
    let m ← made
    if (c.method? m.name m.signature).isSome then
      .error (.duplicateMember c.name (m.name ++ m.signature.render))
    else .ok { c with methods := c.methods ++ [m] }

/-- The field that is added, if it is one. -/
def field? : Addition → Option FieldDef
  | .field f => some f
  | .method _ => none

/-- The fields among additions. -/
def fields (as : List Addition) : List FieldDef := as.filterMap field?

/-- The methods among additions, made one after the other. -/
def methods : List Addition → Except WeaveError (List MethodDef)
  | [] => pure []
  | .field _ :: as => methods as
  | .method made :: as => do return (← made) :: (← methods as)

variable {as bs : List Addition} {c c' : ClassDef} {e : WeaveError}

theorem map_addToDraft (d : Draft) (a : Addition) :
    (addToDraft d a).map Draft.toClass = addTo d.toClass a := by
  cases a with
  | field f => exact d.addField_eq f
  | method made =>
    cases made with
    | error e => rfl
    | ok m => exact d.addMethod_eq m

/-- Adding to a draft is adding to its class. -/
theorem map_foldlM_addToDraft (as : List Addition) (d : Draft) :
    (as.foldlM addToDraft d).map Draft.toClass = as.foldlM addTo d.toClass := by
  induction as generalizing d with
  | nil => rfl
  | cons a as ih =>
    rw [List.foldlM_cons, List.foldlM_cons, ← map_addToDraft]
    cases addToDraft d a with
    | error e => rfl
    | ok d' => exact ih d'

theorem addTo_field (f : FieldDef) : addTo c (.field f) =
    if f.name ∈ c.fields.map (·.name) then .error (.duplicateMember c.name f.name)
    else .ok { c with fields := c.fields ++ [f] } := by
  simp [addTo, ClassDef.field?]

theorem addTo_method (m : MethodDef) : addTo c (.method (.ok m)) =
    if m.key ∈ c.methods.map MethodDef.key then
      .error (.duplicateMember c.name (m.name ++ m.signature.render))
    else .ok { c with methods := c.methods ++ [m] } := by
  simp [addTo, ClassDef.method?, MethodDef.isNamed, MethodDef.key, bind, Except.bind]

theorem methods_cons_eq_ok_iff {m : MethodDef} {ms : List MethodDef} :
    methods (.method (.ok m) :: as) = .ok ms ↔ ∃ rest, methods as = .ok rest ∧ ms = m :: rest := by
  rw [methods]
  cases methods as with
  | error e => simp [bind, Except.bind]
  | ok rest => simp [bind, Except.bind, pure, Except.pure, eq_comm]

/-- **What additions make of a class.** -/
theorem foldlM_addTo_eq_ok_iff : as.foldlM addTo c = .ok c' ↔
    ∃ ms, methods as = .ok ms ∧
      ¬ Clashes (c.fields.map (·.name)) ((fields as).map (·.name)) ∧
      ¬ Clashes (c.methods.map MethodDef.key) (ms.map MethodDef.key) ∧
      c' = { c with fields := c.fields ++ fields as, methods := c.methods ++ ms } := by
  induction as generalizing c with
  | nil => simp [methods, fields, Clashes.not_nil, pure, Except.pure, eq_comm]
  | cons a as ih =>
    rw [List.foldlM_cons]
    cases a with
    | field f =>
      have hfields : fields (.field f :: as) = f :: fields as := rfl
      rw [addTo_field, hfields, List.map_cons, Clashes.not_cons_iff]
      split
      · next hold => simp [hold, bind, Except.bind]
      · next hnew => simp [hnew, bind, Except.bind, ih, methods]
    | method made =>
      have hfields : fields (.method made :: as) = fields as := rfl
      cases made with
      | error e => simp [addTo, methods, bind, Except.bind]
      | ok m =>
        rw [hfields, bind_eq_ok]
        constructor
        · rintro ⟨c₁, hadd, hrun⟩
          rw [addTo_method] at hadd
          split at hadd
          · cases hadd
          · next hnew =>
            cases hadd
            obtain ⟨rest, hrest, hno, hno', rfl⟩ := ih.1 hrun
            refine ⟨m :: rest, methods_cons_eq_ok_iff.2 ⟨rest, hrest, rfl⟩, hno, ?_, by simp⟩
            rw [List.map_cons, Clashes.not_cons_iff]
            exact ⟨hnew, by simpa using hno'⟩
        · rintro ⟨ms, hms, hno, hno', rfl⟩
          obtain ⟨rest, hrest, rfl⟩ := methods_cons_eq_ok_iff.1 hms
          rw [List.map_cons, Clashes.not_cons_iff] at hno'
          refine ⟨_, (addTo_method m).trans (if_neg hno'.1), ih.2 ⟨rest, hrest, hno, ?_, by simp⟩⟩
          simpa using hno'.2

theorem methods_append : methods (as ++ bs) = do return (← methods as) ++ (← methods bs) := by
  induction as with
  | nil => simp [methods]
  | cons a as ih =>
    cases a with
    | field f => exact ih
    | method made =>
      rw [List.cons_append, methods, methods, ih]
      simp

end Addition

end Weaving

end StorageWeave
