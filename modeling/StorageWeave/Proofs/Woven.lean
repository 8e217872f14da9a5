import StorageWeave.Proofs.Exactness

/-!
# Woven classes

What the weaver makes of methods, classes and archives, with the answers of the hierarchy in place
of remembered ones. Where no entries are declared, the code of a method changes only in its field
accesses, one instruction for one (`MethodWoven`). A class keeps its methods, and a storage class
that is no interface has the members of one (`ClassWoven`).
-/

namespace StorageWeave

open Bytecode

namespace Weaving

/-- No visible method is marked as an entry. -/
def Hierarchy.NoEntries (h : Hierarchy) : Prop :=
  ¬ h.Declares h.config.payableAnnotation ∧ ¬ h.Declares h.config.entryAnnotation

theorem Hierarchy.NoEntries.eq_plain {h : Hierarchy} (hno : h.NoEntries) {ref : MethodRef}
    {role : Role} (hrole : (Oracle.exact h).role h.config ref = .ok role) : role = .plain := by
  have hnone {kind : String} {a : Option Annotation} (hkind : ¬ h.Declares kind)
      (ha : h.annotation kind ref = .ok a) : a = none := by
    cases a with
    | none => rfl
    | some a => exact absurd (declares_of_annotationFrom ha) hkind
  obtain ⟨payable, hpayable, hrole⟩ := bind_eq_ok.1 hrole
  rw [hnone hno.1 hpayable] at hrole
  obtain ⟨entry, hentry, hrole⟩ := bind_eq_ok.1 hrole
  rw [hnone hno.2 hentry] at hrole
  exact (Except.ok.inj hrole).symm

namespace MethodWeaver

variable {h : Hierarchy} {c : ClassDef} {method : MethodDef}

theorem flatten_zipWith_forwardedBlock (code : Code) :
    (code.zipWith forwardedBlock (List.replicate code.length none)).flatten = code := by
  induction code with
  | nil => rfl
  | cons i code ih =>
    rw [List.length_cons, List.replicate_succ, List.zipWith_cons_cons, List.flatten_cons, ih]
    rfl

/-- Targets stay where they are if no call is replaced. -/
theorem forwardDistance_replicate (n : Nat) (t : Target) :
    forwardDistance (callsBefore (List.replicate n none)) t = 0 := by
  rw [forwardDistance_callsBefore, List.countP_eq_zero]
  intro call hcall
  rw [List.eq_of_mem_replicate (List.mem_of_mem_take hcall)]
  exact Bool.false_ne_true

/-- Code without calls of entries is handed on as it is. -/
theorem forwardCalls?_replicate (code : Code) :
    forwardCalls? code (List.replicate code.length none) = some code := by
  rw [forwardCalls?, funext (forwardDistance_replicate code.length), Code.moveTargets?_zero]
  exact congrArg some (flatten_zipWith_forwardedBlock code)

theorem forward_eq_self (hno : h.NoEntries) {code code' : Code}
    (hf : forward h (.exact h) c method code = .ok code') : code' = code := by
  obtain ⟨calls, hcalls, hf⟩ := bind_eq_ok.1 hf
  have hrel := forall₂_of_mapM hcalls
  have hnone : ∀ call ∈ calls, call = none := by
    intro call hcall
    obtain ⟨i, -, hi⟩ := exists_of_forall₂_right hrel hcall
    unfold forwarded? at hi
    split at hi
    · obtain ⟨role, hrole, hi⟩ := bind_eq_ok.1 hi
      rw [hno.eq_plain hrole] at hi
      exact (Except.ok.inj hi).symm
    · exact (Except.ok.inj hi).symm
  rw [List.eq_replicate_iff.2 ⟨hrel.length_eq.symm, hnone⟩, forwardCalls?_replicate] at hf
  exact (Except.ok.inj hf).symm

end MethodWeaver

/-- What weaving makes of a method. -/
structure MethodWoven (h : Hierarchy) (c : ClassDef) (m m' : MethodDef) : Prop where
  name : m'.name = m.name
  signature : h.NoEntries → m'.signature = m.signature
  code : h.NoEntries → Option.Rel
    (List.Forall₂ fun i i' => MethodWeaver.redirect h (.exact h) c i = .ok i') m.code m'.code

/-- A method is woven so. -/
theorem MethodWeaver.methodWoven {h : Hierarchy} {c : ClassDef} {m : MethodDef} {w : WovenMethod}
    (hw : weave h (.exact h) c m = .ok w) : MethodWoven h c m w.method := by
  obtain ⟨role, code', hrole, -, hmethod, hcode⟩ := weave_eq_ok hw
  rw [hmethod]
  refine ⟨rfl, fun hno => ?_, fun hno => ?_⟩
  · rw [hno.eq_plain hrole]
    rfl
  · change Option.Rel _ m.code code'
    generalize m.code = code at hcode ⊢
    cases hcode with
    | none => exact .none
    | some hwoven =>
      obtain ⟨prologue, hpasses, -⟩ := hwoven
      obtain ⟨redirected, body, hredirected, hbody, ⟨-, rfl⟩ | ⟨hentry, -⟩⟩ := passes_eq_ok hpasses
      · rw [forward_eq_self hno hbody]
        exact .some (forall₂_of_mapM hredirected)
      · rw [hno.eq_plain hrole] at hentry
        cases hentry

/-! ## Classes -/

/-- The methods that a class keeps, woven. -/
structure ClassWoven (h : Hierarchy) (c c' : ClassDef) : Prop where
  grows : ∃ methods, List.Forall₂ (MethodWoven h c) c.methods methods ∧
    Grows (memberNames (h.lazyFields c)) { c with methods } c'
  members : h.isStorage c.name = true → c.isInterface = false → ∃ k, h.classify c = .ok k ∧
    (∀ f ∈ k.lazyFields, Augmentation.HasAccessors h c f c') ∧
      Has c' (Augmentation.constructor h c k) ∧ Has c' (Augmentation.extractUpdates h c k)

theorem ClassWeaver.classWoven {h : Hierarchy} {c : ClassDef} {wc : WovenClass}
    (hw : ClassWeaver.weave h (.exact h) c = .ok wc) : ClassWoven h c wc.result := by
  obtain ⟨ms, hms, hresult⟩ := exists_methods hw
  have hmethods : List.Forall₂ (MethodWoven h c) c.methods (ms.map (·.method)) :=
    List.forall₂_map_right_iff.2 (hms.imp fun _ _ => MethodWeaver.methodWoven)
  split at hresult
  · obtain ⟨k, d, hk, hresult, hd⟩ := hresult
    obtain ⟨hgrows, hmembers⟩ := Augmentation.addMembers_spec hd
    rw [Draft.toClass_ofClass, Hierarchy.lazyFields_of_classify hk, ← hresult] at hgrows
    rw [← hresult] at hmembers
    exact ⟨⟨_, hmethods, hgrows⟩, fun _ _ => ⟨k, hk, hmembers⟩⟩
  · next hplain =>
    rw [hresult]
    exact ⟨⟨_, hmethods, .refl _ _⟩, fun hs hi => absurd ⟨hi, hs⟩ hplain⟩

/-- **A woven archive** holds the classes of its input, woven against the hierarchy of all indexed
archives. -/
theorem weaveArchive_spec {input : Archive} {dependencies : List Archive} {config : Config}
    {w : WovenArchive} (hw : weaveArchive input dependencies config = .ok w) :
    ∃ built, ClassIndex.build (input :: dependencies) = .ok built ∧
      List.Forall₂ (fun c wc => ClassWoven ⟨built.index, config⟩ c wc.result)
        input.classes w.report.classes := by
  obtain ⟨built, hbuilt, hclasses⟩ := weaveArchive_exact hw
  exact ⟨built, hbuilt, hclasses.imp fun _ _ => ClassWeaver.classWoven⟩

namespace ClassIndex

/-- A class is added behind the others, unless its name is taken. -/
theorem get?_insert {x x' : ClassIndex} {c : IndexedClass} {again : Option RepeatedClass}
    (hx : x.insert c = .ok (x', again)) (name : String) :
    x'.get? name = (x.get? name).or
      (if c.definition.name = name then some c.definition else none) := by
  unfold insert at hx
  rcases hfound : x.find? c.definition.name with _ | known
  · rw [hfound] at hx
    cases hx
    simp only [get?, find?, List.find?_append, List.find?_singleton, Option.map_or,
      decide_eq_true_eq]
    split <;> rfl
  · rw [hfound] at hx
    simp only at hx
    split at hx
    · cases hx
      split
      · next hname => rw [← hname, get?, hfound, Option.map_some, Option.some_or]
      · rw [Option.or_none]
    · cases hx

/-- An index holds the first class of every name. -/
theorem get?_foldlM_addEntry {entries : List Archive.Entry} {b b' : Building}
    (hb : entries.foldlM Building.addEntry b = .ok b') (name : String) :
    b'.index.get? name = (b.index.get? name).or
      ((entries.filterMap fun e => ClassDef.ofBytes? e.data).find? fun c => c.name = name) := by
  induction entries generalizing b with
  | nil =>
    cases hb
    rw [List.filterMap_nil, List.find?_nil, Option.or_none]
  | cons e entries ih =>
    rw [List.foldlM_cons, bind_eq_ok] at hb
    obtain ⟨b₁, h₁, hb⟩ := hb
    unfold Building.addEntry at h₁
    rcases hc : ClassDef.ofBytes? e.data with _ | c
    · rw [hc] at h₁
      cases h₁
    · rw [hc] at h₁
      obtain ⟨⟨index, again⟩, hinsert, h₁⟩ := bind_eq_ok.1 h₁
      cases h₁
      rw [ih hb, get?_insert hinsert, Option.or_assoc, List.filterMap_cons, hc]
      by_cases hname : c.name = name <;> simp [hname]

theorem get?_build {archives : List Archive} {built : Building} (hb : build archives = .ok built)
    (name : String) :
    built.index.get? name = (archives.flatMap Archive.classes).find? fun c => c.name = name := by
  have hclasses : archives.flatMap Archive.classes =
      (archives.flatMap Archive.classEntries).filterMap fun e => ClassDef.ofBytes? e.data := by
    rw [List.filterMap_flatMap]
    rfl
  rw [hclasses]
  exact get?_foldlM_addEntry hb name

end ClassIndex

end Weaving

end StorageWeave
