import StorageWeave.Proofs.Reweaving

/-!
# What a second pass changes

Classes that are given no members can be woven again. The accesses to lazy fields are redirected
after the first pass, and stay so (`MethodWeaver.redirect_woven`). Entries keep their annotations,
though, so the second pass takes the woven entries for entries once more and widens their signatures
again. It changes nothing exactly if the woven archive declares no entry, and the numbers of its
classes are read as they were written (`weaveArchive_again_iff`).
-/

namespace StorageWeave.Weaving

open Bytecode

variable {h : Hierarchy} {c : ClassDef} {m : MethodDef} {w : WovenMethod} {code : Code}

/-- Without entries every method is plain. -/
theorem Hierarchy.Acyclic.role_eq_plain (hac : h.Acyclic) (hno : h.NoEntries) (ref : MethodRef) :
    (Oracle.exact h).role h.config ref = .ok .plain := by
  have hnone {kind : String} (hkind : ¬ h.Declares kind) : h.annotation kind ref = .ok none := by
    obtain ⟨_ | a, ha⟩ := hac.exists_annotation kind ref
    · exact ha
    · exact absurd (Hierarchy.declares_of_annotationFrom ha) hkind
  simp only [Oracle.role, Oracle.exact, hnone hno.1, hnone hno.2]
  rfl

/-! ## Reading what was written -/

/-- Only the constant of an instruction is read otherwise than it was. -/
theorem reread?_instruction {i i' : Instruction} (hi : i.reread? = some i') :
    i' = i ∨ ∃ k k', i = .const k ∧ i' = .const k' := by
  cases i with
  | const k =>
    obtain ⟨k', -, rfl⟩ := Option.map_eq_some_iff.1 hi
    exact .inr ⟨k, k', rfl, rfl⟩
  | _ => exact .inl (Option.some.inj hi).symm

theorem firstInvalid?_reread {code' : Code}
    (hcode : List.Forall₂ (fun i i' => i.reread? = some i') code code') (length position : Nat) :
    Code.firstInvalid? length position code' = Code.firstInvalid? length position code := by
  induction hcode generalizing position with
  | nil => rfl
  | cons hi _ ih =>
    obtain rfl | ⟨k, k', rfl, rfl⟩ := reread?_instruction hi
    · simp only [Code.firstInvalid?, ih]
    · exact ih (position + 1)

theorem validate_reread {code' : Code}
    (hcode : List.Forall₂ (fun i i' => i.reread? = some i') code code') :
    Code.validate code' = Code.validate code := by
  rw [Code.validate, Code.validate, firstInvalid?_reread hcode, hcode.length_eq]

/-- A class that is written as it is read has been read back. -/
theorem eq_of_toBytes_eq {c c' : ClassDef} (hread : ClassDef.ofBytes? c.toBytes = some c')
    (hbytes : c.toBytes = c'.toBytes) : c = c' := by
  have hfinite {d : ClassDef} (hd : ClassDef.ofBytes? d.toBytes = some c') : d.IsFinite := by
    by_contra hinfinite
    rw [ClassDef.ofBytes?_toBytes, ClassDef.reread?_eq_none hinfinite] at hd
    cases hd
  exact ClassDef.toBytes_injective (hfinite hread) (hfinite (hbytes ▸ hread)) hbytes

namespace MethodWeaver

/-! ## Accesses that are redirected once -/

theorem redirect_reread {i i' : Instruction} (hread : i.reread? = some i')
    (hi : redirect h (.exact h) c i = .ok i) : redirect h (.exact h) c i' = .ok i' := by
  obtain rfl | ⟨k, k', rfl, rfl⟩ := reread?_instruction hread
  · exact hi
  · rfl

theorem redirect_mapTargets {i : Instruction} (τ : Target → Target)
    (hi : redirect h (.exact h) c i = .ok i) :
    redirect h (.exact h) c (i.mapTargets τ) = .ok (i.mapTargets τ) := by
  cases i with
  | getField owner name type => exact hi
  | putField owner name type => exact hi
  | _ => rfl

/-- What comes in the place of an access is a call. -/
theorem redirect_redirect {i i' : Instruction} (hi : redirect h (.exact h) c i = .ok i') :
    redirect h (.exact h) c i' = .ok i' := by
  obtain ⟨rfl, -⟩ | ⟨_, _, _, _, -, ⟨-, rfl⟩ | ⟨-, rfl⟩⟩ := redirect_eq_ok hi
  · exact hi
  · rfl
  · rfl

theorem redirect_forward {code' : Code} (hf : forward h (.exact h) c m code = .ok code')
    (hcode : ∀ i ∈ code, redirect h (.exact h) c i = .ok i) :
    ∀ i ∈ code', redirect h (.exact h) c i = .ok i := by
  obtain ⟨calls, τ, hcalls, rfl⟩ := forward_eq_ok hf
  intro i' hi'
  obtain ⟨i, hi, r, hr, hmem⟩ := (mem_forward_iff hcalls).1 hi'
  have hmoved := redirect_mapTargets τ (hcode i hi)
  obtain ⟨rfl, -⟩ | ⟨kind, owner, name, signature, role, rfl, -, rfl⟩ := forwarded?_eq_ok hr
  · cases List.mem_singleton.1 hmem
    exact hmoved
  · split at hmem
    · rcases List.mem_pair.1 hmem with rfl | rfl <;> rfl
    · cases List.mem_singleton.1 hmem
      rfl

theorem prologueCode_cases {slot : UInt16} {expected : Option String} {amount : Option FieldType}
    {i : Instruction} (hi : i ∈ prologueCode h slot expected amount) :
    i = .loadThis ∨ (∃ kind slot, i = .load kind slot) ∨ (∃ name, i = .checkCast name) ∨
      ∃ kind owner name signature, i = .invoke kind owner name signature := by
  cases amount <;> simp [prologueCode] at hi <;> grind

theorem redirect_prologueCode (slot : UInt16) (expected : Option String)
    (amount : Option FieldType) :
    ∀ i ∈ prologueCode h slot expected amount, redirect h (.exact h) c i = .ok i := by
  intro i hi
  obtain rfl | ⟨_, _, rfl⟩ | ⟨_, rfl⟩ | ⟨_, _, _, _, rfl⟩ := prologueCode_cases hi <;> rfl

/-- **Woven code** has no access that would be redirected. -/
theorem redirect_woven {woven : Code} (hw : weave h (.exact h) c m = .ok w)
    (hwoven : w.method.code = some woven) :
    ∀ i ∈ woven, redirect h (.exact h) c i = .ok i := by
  obtain ⟨role, -, -, -, hsome⟩ := exists_role hw
  rw [hwoven] at hsome
  obtain ⟨code, hcode⟩ := Option.isSome_iff_exists.1 hsome.symm
  obtain ⟨redirected, body, _, hredirected, hbody, hwoven', hsite⟩ := exists_body hw hcode
  cases hwoven.symm.trans hwoven'
  have hbody : ∀ i ∈ body, redirect h (.exact h) c i = .ok i := by
    refine redirect_forward hbody fun i' hi' => ?_
    obtain ⟨i, -, hi⟩ := exists_of_forall₂_right (forall₂_of_mapM hredirected) hi'
    exact redirect_redirect hi
  obtain rfl | ⟨position, slot, expected, amount, τ, hsplices⟩ := hsite
  · exact hbody
  · intro i' hi'
    obtain hblock | ⟨i, hi, rfl⟩ := hsplices.origin i' hi'
    · exact redirect_prologueCode slot expected amount i' hblock
    · exact redirect_mapTargets τ (hbody i hi)

/-- The branches of woven code have been checked. -/
theorem validate_woven {woven : Code} (hw : weave h (.exact h) c m = .ok w)
    (hwoven : w.method.code = some woven) : Code.validate woven = .ok () := by
  obtain ⟨role, code', -, -, hmethod, hcode⟩ := weave_eq_ok hw
  rw [hmethod] at hwoven
  obtain rfl : code' = some woven := hwoven
  generalize m.code = code at hcode
  cases hcode with
  | some hpassed =>
    obtain ⟨prologue, -, hvalid⟩ := hpassed
    exact hvalid

/-! ## Methods that stay as they are -/

theorem mapM_eq_ok_map {α β : Type} {f : α → Except WeaveError β} {g : α → β} {as : List α}
    (hf : ∀ a ∈ as, f a = .ok (g a)) : as.mapM f = .ok (as.map g) := by
  induction as with
  | nil => rfl
  | cons a as ih =>
    obtain ⟨ha, has⟩ := List.forall_mem_cons.1 hf
    rw [List.mapM_cons, ha, ih has]
    rfl

theorem forward_of_noEntries (hac : h.Acyclic) (hno : h.NoEntries) (m : MethodDef) (code : Code) :
    forward h (.exact h) c m code = .ok code := by
  have hnone (i : Instruction) : forwarded? h (.exact h) c m i = .ok none := by
    unfold forwarded?
    split
    · rw [hac.role_eq_plain hno]
      rfl
    · rfl
  have hcalls : code.mapM (forwarded? h (.exact h) c m) =
      .ok (List.replicate code.length none) := by
    rw [mapM_eq_ok_map fun i _ => hnone i, List.map_const']
  simp only [forward, hcalls, bind, Except.bind, forwardCalls?_replicate]
  rfl

/-- **A method stays as it is** if there are no entries, no access in it is to be redirected, and
its branches stay in its code. -/
theorem weave_eq_self (hac : h.Acyclic) (hno : h.NoEntries)
    (hcode : ∀ code, m.code = some code →
      (∀ i ∈ code, redirect h (.exact h) c i = .ok i) ∧ Code.validate code = .ok ()) :
    weave h (.exact h) c m = .ok ⟨m, none⟩ := by
  rw [weave, hac.role_eq_plain hno]
  rcases hm : m.code with _ | code
  · cases m
    cases hm
    rfl
  · obtain ⟨hredirect, hvalid⟩ := hcode code hm
    have hweave : weaveCode h (.exact h) c m .plain code = .ok (code, none) := by
      rw [weaveCode, mapM_eq_ok_map hredirect, List.map_id']
      change (forward h (.exact h) c m code >>= fun code => _) = _
      rw [forward_of_noEntries hac hno]
      change (checkCode c m code >>= fun _ => _ : Except WeaveError (Code × Option Prologue)) = _
      rw [checkCode, hvalid]
      rfl
    cases m
    cases hm
    change (weaveCode h (.exact h) c _ .plain code >>= fun _ => _) = _
    rw [hweave]
    rfl

/-- Weaving changes nothing but the code of a plain method. -/
theorem exists_code_of_plain (hw : weave h (.exact h) c m = .ok w)
    (hplain : (Oracle.exact h).role h.config ⟨c.name, m.name, m.signature⟩ = .ok .plain) :
    ∃ code, w.method = { m with code } := by
  obtain ⟨role, code', hrole, -, hmethod, -⟩ := weave_eq_ok hw
  cases hplain.symm.trans hrole
  exact ⟨code', hmethod⟩

end MethodWeaver

/-! ## Classes without members -/

/-- A class that is given no members is woven if its methods are. -/
theorem ClassWeaver.weave_of_plain {ms : List WovenMethod}
    (hplain : c.isInterface = false → h.isStorage c.name = false)
    (hms : c.methods.mapM (MethodWeaver.weave h (.exact h) c) = .ok ms) :
    ∃ wc, ClassWeaver.weave h (.exact h) c = .ok wc ∧
      wc.result = { c with methods := ms.map (·.method) } := by
  let wc : WovenClass := ⟨{ c with methods := ms.map (·.method) }, false, h.isContract c.name,
    ms.filterMap (·.prologue), none⟩
  refine ⟨wc, ?_, rfl⟩
  unfold ClassWeaver.weave
  extract_lets rest
  have hrest : rest false = .ok wc := by
    change (c.methods.mapM (MethodWeaver.weave h (.exact h) c) >>= fun methods => _) = _
    rw [hms]
    rfl
  cases hinterface : c.isInterface with
  | true => exact hrest
  | false =>
    change rest (h.isStorage c.name) = _
    rw [hplain hinterface]
    exact hrest

/-- A class stays as it is if its methods do and it is given no members. -/
theorem ClassWeaver.weave_eq_self (hplain : c.isInterface = false → h.isStorage c.name = false)
    (hmethods : ∀ m ∈ c.methods, MethodWeaver.weave h (.exact h) c m = .ok ⟨m, none⟩) :
    ∃ wc, ClassWeaver.weave h (.exact h) c = .ok wc ∧ wc.result = c := by
  obtain ⟨wc, hwc, hresult⟩ :=
    ClassWeaver.weave_of_plain hplain (MethodWeaver.mapM_eq_ok_map hmethods)
  refine ⟨wc, hwc, hresult.trans ?_⟩
  rw [List.map_map]
  exact congrArg (fun methods => { c with methods }) (List.map_id _)

theorem forall₂_comp {α β γ : Type} {R : α → β → Prop} {S : β → γ → Prop} {as : List α}
    {bs : List β} {cs : List γ} (h : List.Forall₂ R as bs) (h' : List.Forall₂ S bs cs) :
    List.Forall₂ (Relation.Comp R S) as cs := by
  induction h generalizing cs with
  | nil =>
    cases h'
    exact .nil
  | cons hab _ ih =>
    cases h' with
    | cons hbc h' => exact .cons ⟨_, hab, hbc⟩ (ih h')

/-- Only its methods are other ones, when a class that is given no members is read again. -/
theorem Reread.exists_methods {c' : ClassDef} (hc : Reread h c c')
    (hplain : c.isInterface = false → h.isStorage c.name = false) :
    ∃ methods, c' = { c with methods } ∧
      List.Forall₂ (RereadMethod h c) c.methods methods := by
  obtain ⟨wc, hw, hread⟩ := hc
  obtain ⟨ms, hms, hresult⟩ := ClassWeaver.exists_methods hw
  rw [if_neg fun ⟨hclass, hstorage⟩ => by simp [hplain hclass] at hstorage] at hresult
  rw [hresult] at hread
  obtain ⟨methods, rfl, hmethods⟩ := reread?_class hread
  refine ⟨methods, rfl, ?_⟩
  exact forall₂_comp hms (List.forall₂_map_left_iff.1 hmethods)

/-- Without entries, a method that is found in the class that is read was found before, with other
code at most. -/
theorem Reread.exists_method? {c' : ClassDef} (hc : Reread h c c')
    (hplain : c.isInterface = false → h.isStorage c.name = false) (hac : h.Acyclic)
    (hno : h.NoEntries) {name : String} {signature : Signature} {m' : MethodDef}
    (hm' : c'.method? name signature = some m') :
    ∃ m code, c.method? name signature = some m ∧ m' = { m with code } := by
  obtain ⟨methods, rfl, hmethods⟩ := hc.exists_methods hplain
  have hcode : List.Forall₂ (fun m m' => ∃ code, m' = { m with code }) c.methods methods := by
    refine hmethods.imp fun m m' hm => ?_
    obtain ⟨wm, hweave, hread⟩ := hm
    obtain ⟨code, hwm⟩ := MethodWeaver.exists_code_of_plain hweave (hac.role_eq_plain hno _)
    obtain ⟨code', rfl, -⟩ := reread?_method hread
    exact ⟨code', by rw [hwm]⟩
  have hkey (m m' : MethodDef) (hm : ∃ code, m' = { m with code }) : m'.key = m.key := by
    obtain ⟨code, rfl⟩ := hm
    rfl
  have hrel : Option.Rel (fun m m' => ∃ code, m' = { m with code }) (c.method? name signature)
      (({ c with methods } : ClassDef).method? name signature) :=
    rel_method? hkey hcode name signature
  rw [hm'] at hrel
  generalize c.method? name signature = found at hrel ⊢
  cases hrel with
  | @some m _ hm =>
    obtain ⟨code, rfl⟩ := hm
    exact ⟨m, code, rfl, rfl⟩

/-! ## The hierarchy after the first pass -/

theorem Hierarchy.resolveField_eq {h h' : Hierarchy} (hsize : h'.index.size = h.index.size)
    (hclasses : ∀ name, Option.Rel (fun c c' => c'.superclass = c.superclass ∧
      c'.fields = c.fields) (h.index.get? name) (h'.index.get? name)) (owner name : String) :
    h'.resolveField owner name = h.resolveField owner name := by
  have hfrom (fuel : Nat) (owner : String) :
      h'.resolveFieldFrom name fuel owner = h.resolveFieldFrom name fuel owner := by
    induction fuel generalizing owner with
    | zero => rfl
    | succ fuel ih =>
      have hrel := hclasses owner
      simp only [resolveFieldFrom]
      generalize h.index.get? owner = x at hrel
      generalize h'.index.get? owner = y at hrel
      cases hrel with
      | none => rfl
      | some hc => simp only [ClassDef.field?, hc.1, hc.2, funext ih]
  rw [resolveField, resolveField, walkBound, walkBound, hsize, hfrom]

/-- Hierarchies that find the same fields redirect alike. -/
theorem Hierarchy.Resembles.redirect_eq {h h' : Hierarchy} {c c' : ClassDef} (hr : h.Resembles h')
    (hfield : ∀ owner name, h'.resolveField owner name = h.resolveField owner name)
    (hname : c'.name = c.name) (i : Instruction) :
    MethodWeaver.redirect h' (.exact h') c' i = MethodWeaver.redirect h (.exact h) c i := by
  simp only [MethodWeaver.redirect, MethodWeaver.accessorOwner, Oracle.exact, hr.isLazy_eq,
    hr.isStorage_eq, hfield, hname]

namespace Reindexed

variable {input : Archive} {config : Config} {w w' : WovenArchive}
  {built built' : ClassIndex.Building}

section Plain

variable (hr : Reindexed input [] config w built built')
  (hplain : ∀ c ∈ input.classes, c.isInterface = false →
    Hierarchy.isStorage ⟨built.index, config⟩ c.name = false)
include hr hplain

theorem resolveField_eq (owner name : String) :
    Hierarchy.resolveField ⟨built'.index, config⟩ owner name =
      Hierarchy.resolveField ⟨built.index, config⟩ owner name := by
  refine Hierarchy.resolveField_eq hr.resembles.size (fun name => ?_) owner name
  obtain ⟨found, found', other, hrel, hfound, -, hget, hget'⟩ := hr.exists_get? name
  rw [hget, hget']
  cases hrel with
  | some hc =>
    obtain ⟨methods, rfl, -⟩ := hc.exists_methods (hplain _ (List.mem_of_find?_eq_some hfound))
    exact .some ⟨rfl, rfl⟩
  | none =>
    cases other with
    | none => exact .none
    | some c => exact .some ⟨rfl, rfl⟩

/-- No class of the woven archive is to be given members. -/
theorem plain_result {c' : ClassDef} (hc' : c' ∈ w.result.classes)
    (hclass : c'.isInterface = false) :
    Hierarchy.isStorage ⟨built'.index, config⟩ c'.name = false := by
  obtain ⟨c, hc, hreread⟩ := exists_of_forall₂_right hr.classes hc'
  have hres := hreread.resembles
  rw [ClassDef.isInterface, hres.access] at hclass
  rw [hr.resembles.isStorage_eq, hres.name]
  exact hplain c hc hclass

/-- **Without entries** every class of the woven archive stays as it is. -/
theorem weave_eq_self (hac : Hierarchy.Acyclic ⟨built.index, config⟩)
    (hno : Hierarchy.NoEntries ⟨built'.index, config⟩) {c' : ClassDef}
    (hc' : c' ∈ w.result.classes) :
    ∃ wc, ClassWeaver.weave ⟨built'.index, config⟩ (.exact ⟨built'.index, config⟩) c' = .ok wc ∧
      wc.result = c' := by
  refine ClassWeaver.weave_eq_self (hr.plain_result hplain hc') fun m' hm' => ?_
  obtain ⟨c, hc, hreread⟩ := exists_of_forall₂_right hr.classes hc'
  obtain ⟨methods, rfl, hmethods⟩ := hreread.exists_methods (hplain c hc)
  obtain ⟨m, -, wm, hweave, hread⟩ := exists_of_forall₂_right hmethods hm'
  obtain ⟨_, rfl, hcode⟩ := reread?_method hread
  refine MethodWeaver.weave_eq_self (hr.resembles.acyclic hac) hno fun code' hcode' => ?_
  cases hcode'
  rcases hwoven : wm.method.code with _ | woven
  · rw [hwoven] at hcode
    cases hcode
  rw [hwoven] at hcode
  cases hcode with
  | some hcode =>
    refine ⟨fun i' hi' => ?_, ?_⟩
    · obtain ⟨i, hi, hread⟩ := exists_of_forall₂_right hcode hi'
      rw [hr.resembles.redirect_eq (hr.resolveField_eq hplain) rfl]
      exact MethodWeaver.redirect_reread hread (MethodWeaver.redirect_woven hweave hwoven i hi)
    · rw [validate_reread hcode]
      exact MethodWeaver.validate_woven hweave hwoven

/-- **With entries** the second pass changes the archive: their signatures are widened again. -/
theorem noEntries_of_result_eq (hw' : weaveArchive w.result [] config = .ok w')
    (heq : w'.result = w.result) : Hierarchy.NoEntries ⟨built'.index, config⟩ := by
  refine Hierarchy.noEntries_of_role fun c hc m hm => ?_
  have hmem : c ∈ w.result.classes := by
    rw [ClassIndex.get?_build hr.after, List.flatMap_singleton] at hc
    exact List.mem_of_find?_eq_some hc
  -- The second pass is a first pass over the woven archive, and has the same index after it.
  have hr' : Reindexed w.result [] config w' built' built' :=
    ⟨hw', hr.after, heq.symm ▸ hr.after⟩
  have hreread : Reread ⟨built'.index, config⟩ c c :=
    List.forall₂_same.1 (heq ▸ hr'.classes) c hmem
  obtain ⟨methods, hc, hmethods⟩ := hreread.exists_methods (hr.plain_result hplain hmem)
  obtain rfl : c.methods = methods := congrArg ClassDef.methods hc
  obtain ⟨wm, hweave, hread⟩ := List.forall₂_same.1 hmethods m hm
  obtain ⟨role, hrole, -, hsignature, -⟩ := MethodWeaver.exists_role hweave
  obtain ⟨code, hm, -⟩ := reread?_method hread
  have hsame : role.signature config m.signature = Role.plain.signature config m.signature := by
    rw [← hsignature]
    exact (congrArg MethodDef.signature hm).symm
  cases role with
  | plain => exact hrole
  | _ => cases Role.signature_eq_iff.1 hsame

/-- Where no entries are declared, weaving adds none. -/
theorem noEntries (hac : Hierarchy.Acyclic ⟨built.index, config⟩)
    (hno : Hierarchy.NoEntries ⟨built.index, config⟩) :
    Hierarchy.NoEntries ⟨built'.index, config⟩ := by
  have hdeclares {kind : String} (hd : Hierarchy.Declares ⟨built'.index, config⟩ kind) :
      Hierarchy.Declares ⟨built.index, config⟩ kind := by
    obtain ⟨c', m', hindexed', hm', ha⟩ := hd
    obtain ⟨found, found', other, hrel, hfound, -, hget, hget'⟩ := hr.exists_get? c'.name
    cases hrel with
    | none => exact ⟨c', m', by rwa [hget, ← hget'], hm', ha⟩
    | @some c c'' hc =>
      cases hindexed'.symm.trans hget'
      obtain ⟨m, code, hm, rfl⟩ := hc.exists_method?
        (hplain _ (List.mem_of_find?_eq_some hfound)) hac hno hm'
      rw [hc.resembles.name] at hget
      exact ⟨c, m, hget, hm, ha⟩
  exact ⟨fun hd => hno.1 (hdeclares hd), fun hd => hno.2 (hdeclares hd)⟩

open ArchiveWeaver in
/-- Without entries, a second pass changes nothing but numbers that are not read back. -/
theorem result_eq_iff (hac : Hierarchy.Acyclic ⟨built.index, config⟩)
    (hno : Hierarchy.NoEntries ⟨built'.index, config⟩)
    (hw' : weaveArchive w.result [] config = .ok w') :
    w'.result = w.result ↔ ∀ c ∈ input.classes, ∀ k ∈ c.constants, k.ReadsBack := by
  have hac' := hr.resembles.acyclic hac
  have hentries := entriesWoven_weaveArchive hr.before hac hr.woven
  have hentries' := entriesWoven_weaveArchive hr.after hac' hw'
  have hfirst {e e' : Archive.Entry} (hclass : e.isClass = true)
      (hwoven : EntryWoven ⟨built.index, config⟩ e e') :
      ∃ c wc, ClassDef.ofBytes? e.data = some c ∧ e'.data = wc.toBytes ∧
        (ClassDef.ofBytes? wc.toBytes = some wc ↔ ∀ k ∈ c.constants, k.ReadsBack) := by
    obtain ⟨c, wc, hread, hwc, hdata⟩ := hwoven.exists_class hclass
    rw [hac.weaveClass_eq] at hwc
    obtain ⟨ms, added, hout⟩ := ClassWeaver.exists_output hwc
    exact ⟨c, wc.result, hread, hdata, hout.ofBytes?_toBytes_iff⟩
  -- The second pass writes each class as it has read it.
  have hsecond {e e' : Archive.Entry} (he : e ∈ w.result.entries) (hclass : e.isClass = true)
      (hwoven : EntryWoven ⟨built'.index, config⟩ e e') :
      ∃ c', ClassDef.ofBytes? e.data = some c' ∧ e'.data = c'.toBytes := by
    obtain ⟨c', wc, hread, hwc, hdata⟩ := hwoven.exists_class hclass
    obtain ⟨wc', hwc', hresult⟩ :=
      hr.weave_eq_self hplain hac hno (mem_classes.2 ⟨e, he, hclass, hread⟩)
    rw [hac'.weaveClass_eq] at hwc
    cases hwc.symm.trans hwc'
    exact ⟨c', hread, hresult ▸ hdata⟩
  constructor
  · intro heq c hc
    rw [heq] at hentries'
    obtain ⟨e, he, hclass, hread⟩ := mem_classes.1 hc
    obtain ⟨e', he', hwoven⟩ := exists_of_forall₂_right hentries.flip he
    obtain ⟨c, wc, hread', hdata, hback⟩ := hfirst hclass hwoven
    cases hread.symm.trans hread'
    obtain ⟨c', hread', hdata'⟩ :=
      hsecond he' (hwoven.isClass_eq.trans hclass) (List.forall₂_same.1 hentries' e' he')
    rw [hdata] at hread' hdata'
    rw [← hback, hread', eq_of_toBytes_eq hread' hdata']
  · intro hback
    have heq : List.Forall₂ Eq w.result.entries w'.result.entries := by
      refine ((List.forall₂_and_left (p := (· ∈ w.result.entries)) _ _).2
        ⟨fun _ he => he, hentries'⟩).imp fun e e' ⟨he, hwoven'⟩ => ?_
      cases hclass : e.isClass with
      | false => exact (hwoven'.eq_of_not_isClass hclass).symm
      | true =>
        obtain ⟨e₀, he₀, hwoven⟩ := exists_of_forall₂_right hentries he
        have hclass₀ := hwoven.isClass_eq.symm.trans hclass
        obtain ⟨c, wc, hread, hdata, hiff⟩ := hfirst hclass₀ hwoven
        obtain ⟨c', hread', hdata'⟩ := hsecond he hclass hwoven'
        have hc : ClassDef.ofBytes? e.data = some wc :=
          hdata ▸ hiff.2 (hback c (mem_classes.2 ⟨e₀, he₀, hclass₀, hread⟩))
        cases hc.symm.trans hread'
        exact (hwoven'.eq_mk (hdata'.trans hdata.symm)).symm
    rw [List.forall₂_eq_eq_eq] at heq
    exact Archive.ext_entries heq.symm

end Plain

end Reindexed

/--
An archive without storage classes, other than interfaces, is woven, and what comes out is woven
again. The second pass gives back exactly what it is given if and only if the numbers in the classes
are read back, and the woven archive has an index in which no method is marked as an entry. So an
archive that has no entries to begin with, and only numbers that are read back, is not changed by a
second pass that succeeds.
-/
theorem weaveArchive_again_iff {input : Archive} {config : Config} {w : WovenArchive}
    {built : ClassIndex.Building} (hw : weaveArchive input [] config = .ok w)
    (hbuilt : ClassIndex.build [input] = .ok built)
    (hac : Hierarchy.Acyclic ⟨built.index, config⟩)
    (hplain : ∀ c ∈ input.classes, c.isInterface = false →
      Hierarchy.isStorage ⟨built.index, config⟩ c.name = false) :
    ((∃ w', weaveArchive w.result [] config = .ok w' ∧ w'.result = w.result) ↔
      (∀ c ∈ input.classes, ∀ k ∈ c.constants, k.ReadsBack) ∧
        ∃ built', ClassIndex.build [w.result] = .ok built' ∧
          Hierarchy.NoEntries ⟨built'.index, config⟩) ∧
    (Hierarchy.NoEntries ⟨built.index, config⟩ →
      (∀ c ∈ input.classes, ∀ k ∈ c.constants, k.ReadsBack) →
        ∀ w', weaveArchive w.result [] config = .ok w' → w'.result = w.result) := by
  refine ⟨⟨?_, ?_⟩, ?_⟩
  · rintro ⟨w', hw', heq⟩
    obtain ⟨built', hbuilt', -⟩ := weaveArchive_exact hw'
    have hr : Reindexed input [] config w built built' := ⟨hw, hbuilt, hbuilt'⟩
    have hno := hr.noEntries_of_result_eq hplain hw' heq
    exact ⟨(hr.result_eq_iff hplain hac hno hw').1 heq, built', hbuilt', hno⟩
  · rintro ⟨hback, built', hbuilt', hno⟩
    have hr : Reindexed input [] config w built built' := ⟨hw, hbuilt, hbuilt'⟩
    have hac' := hr.resembles.acyclic hac
    obtain ⟨w', hw'⟩ : ∃ w', weaveArchive w.result [] config = .ok w' := by
      refine (ArchiveWeaver.exists_weaveArchive_iff hbuilt' hac').2 fun c' hc' => ?_
      obtain ⟨wc, hwc, -⟩ := hr.weave_eq_self hplain hac hno hc'
      exact ⟨wc, by rw [hac'.weaveClass_eq, hwc]⟩
    exact ⟨w', hw', (hr.result_eq_iff hplain hac hno hw').2 hback⟩
  · intro hno hback w' hw'
    obtain ⟨built', hbuilt', -⟩ := weaveArchive_exact hw'
    have hr : Reindexed input [] config w built built' := ⟨hw, hbuilt, hbuilt'⟩
    exact (hr.result_eq_iff hplain hac (hr.noEntries hplain hac hno) hw').2 hback

/-! ### Archives of one class -/

namespace Only

/-- The archive of a class. -/
def archive (c : ClassDef) : Archive where
  entries := [⟨"shop/Only.class", c.toBytes⟩]
  distinct := List.nodup_singleton _

/-- The index of the archive. -/
def index (c : ClassDef) : ClassIndex.Building where
  index := ⟨[⟨c, c.toBytes⟩]⟩

theorem isClass_entry (data : Bytes) :
    Archive.Entry.isClass ⟨"shop/Only.class", data⟩ = true := by
  have hname : Archive.classSuffix.toList.reverse.isPrefixOf "shop/Only.class".toList.reverse =
      true := by decide
  exact hname

theorem data_archive (c : ClassDef) :
    (archive c).classEntries.map (·.data) = [c].map (·.toBytes) := by
  simp [Archive.classEntries, archive, isClass_entry]

section

variable {c c' : ClassDef} (hread : ClassDef.ofBytes? c.toBytes = some c)
include hread

theorem classes_archive : (archive c).classes = [c] :=
  ClassIndex.classes_of_data (data_archive c) (by simpa using hread)

theorem build_archive : ClassIndex.build [archive c] = .ok (index c) :=
  ClassIndex.build_of_nodup (data_archive c) (by simpa using hread) (List.nodup_singleton _)

/-- What comes out is the archive of the woven class. -/
theorem exists_woven (hac : (index c).hierarchy.Acyclic) {wc : WovenClass}
    (hwc : ClassWeaver.weave (index c).hierarchy (.exact (index c).hierarchy) c = .ok wc)
    (hresult : wc.result = c') :
    ∃ w, weaveArchive (archive c) [] {} = .ok w ∧ w.result = archive c' := by
  have hweave : weaveClass (index c).hierarchy c = .ok wc := by rw [hac.weaveClass_eq, hwc]
  obtain ⟨w, hw⟩ : ∃ w, weaveArchive (archive c) [] {} = .ok w := by
    refine (ArchiveWeaver.exists_weaveArchive_iff (build_archive hread) hac).2 fun d hd => ?_
    rw [classes_archive hread] at hd
    cases List.mem_singleton.1 hd
    exact ⟨wc, hweave⟩
  refine ⟨w, hw, ?_⟩
  have hentries := ArchiveWeaver.entriesWoven_weaveArchive (build_archive hread) hac hw
  obtain ⟨e, es, hwoven, hnil, hsingle⟩ := List.forall₂_cons_left_iff.1 hentries
  cases hnil
  obtain ⟨d, wd, hread', hwd, hdata⟩ := hwoven.exists_class (isClass_entry _)
  cases hread.symm.trans hread'
  cases hweave.symm.trans hwd
  rw [hwoven.eq_mk (hresult ▸ hdata)] at hsingle
  exact Archive.ext_entries hsingle

end

theorem eq_of_get? {c d : ClassDef} (hd : (index c).index.get? d.name = some d) : d = c := by
  obtain ⟨x, hx, rfl⟩ := Option.map_eq_some_iff.1 hd
  cases List.mem_singleton.1 (List.mem_of_find?_eq_some hx)
  rfl

/-! #### A class without entries -/

/-- A class that writes a number in a loop. -/
def sign : ClassDef where
  name := "shop.Sign"
  superclass := some "lang.Object"
  methods := [{
    name := "blink"
    signature := ⟨[.primitive .boolean], none⟩
    code := some [.const (.double ⟨0x3ff8000000000000⟩), .store .double 2, .load .int 1,
      .branchIf .ne 0, .return none] }]

theorem sign_constants : ∀ k ∈ sign.constants, k.ReadsBack := by decide +kernel

theorem sign_reads_back : ClassDef.ofBytes? sign.toBytes = some sign := by
  rw [ClassDef.ofBytes?_toBytes, ClassDef.reread?_eq_self_iff]
  exact sign_constants

theorem sign_acyclic : (index sign).hierarchy.Acyclic :=
  .of_rank (fun x => if x = "shop.Sign" then 1 else 0) (by decide)

theorem sign_noEntries : (index sign).hierarchy.NoEntries := by
  refine Hierarchy.noEntries_of_role fun c hc m hm => ?_
  cases eq_of_get? hc
  cases List.mem_singleton.1 hm
  decide +kernel

/-- The class is the same after each of two passes. -/
theorem sign_stays : ∃ w w', weaveArchive (archive sign) [] {} = .ok w ∧
    (index sign).hierarchy.Acyclic ∧
    (∀ c ∈ (archive sign).classes, c.isInterface = false →
      (index sign).hierarchy.isStorage c.name = false) ∧
    weaveArchive w.result [] {} = .ok w' ∧ w'.result = w.result := by
  have hplain : ∀ c ∈ (archive sign).classes, c.isInterface = false →
      (index sign).hierarchy.isStorage c.name = false := by
    rw [classes_archive sign_reads_back]
    exact List.forall_mem_singleton.2 fun _ => by decide
  have hback : ∀ c ∈ (archive sign).classes, ∀ k ∈ c.constants, k.ReadsBack := by
    rw [classes_archive sign_reads_back]
    exact List.forall_mem_singleton.2 sign_constants
  obtain ⟨wc, hwc, hsign⟩ : ∃ wc, ClassWeaver.weave (index sign).hierarchy
      (.exact (index sign).hierarchy) sign = .ok wc ∧ wc.result = sign := by
    refine ClassWeaver.weave_eq_self (fun _ => by decide) fun m hm => ?_
    cases List.mem_singleton.1 hm
    refine MethodWeaver.weave_eq_self sign_acyclic sign_noEntries ?_
    rintro _ ⟨⟩
    decide +kernel
  obtain ⟨w, hw, hresult⟩ := exists_woven sign_reads_back sign_acyclic hwc hsign
  have hbuilt : ClassIndex.build [w.result] = .ok (index sign) := by
    rw [hresult]
    exact build_archive sign_reads_back
  obtain ⟨w', hw', heq⟩ := (weaveArchive_again_iff hw (build_archive sign_reads_back) sign_acyclic
    hplain).1.2 ⟨hback, index sign, hbuilt, sign_noEntries⟩
  exact ⟨w, w', hw, sign_acyclic, hplain, hw', heq⟩

/-! #### An interface with an entry -/

/-- An entry that takes some contracts. -/
def pay (n : Nat) : MethodDef where
  name := "pay"
  signature := ⟨List.replicate n (.reference "runtime.Contract"), none⟩
  annotations := [⟨"runtime.Entry", none⟩]

/-- An interface with the entry. -/
def payee (n : Nat) : ClassDef where
  name := "shop.Payee"
  access := .interface
  methods := [pay n]

theorem payee_reads_back (n : Nat) : ClassDef.ofBytes? (payee n).toBytes = some (payee n) := by
  rw [ClassDef.ofBytes?_toBytes]
  rfl

theorem isInterface_payee (n : Nat) : (payee n).isInterface = true := by
  have : Access.interface.contains .interface = true := by decide
  exact this

theorem payee_acyclic (n : Nat) : (index (payee n)).hierarchy.Acyclic :=
  .of_rank (fun _ => 0) (by simp [index, payee, ClassIndex.Building.hierarchy])

theorem role_pay (n : Nat) : (Oracle.exact (index (payee n)).hierarchy).role {}
    ⟨"shop.Payee", "pay", (pay n).signature⟩ = .ok .entry := by
  have hget : (index (payee n)).hierarchy.index.get? "shop.Payee" = some (payee n) := rfl
  have hmethod : (payee n).method? "pay" (pay n).signature = some (pay n) := by
    simp [ClassDef.method?, payee, MethodDef.isNamed, pay]
  have hpayable : (pay n).annotation? "runtime.Payable" = none := by
    simp [MethodDef.annotation?, pay]
  have hentry : (pay n).annotation? "runtime.Entry" = some ⟨"runtime.Entry", none⟩ := by
    simp [MethodDef.annotation?, pay]
  have hparents : (payee n).superclass.toList ++ (payee n).interfaces = [] := rfl
  simp only [Oracle.role, Oracle.exact, Hierarchy.annotation, Hierarchy.pathBound,
    Hierarchy.annotationFrom, Hierarchy.annotationAt, hget, hmethod, hpayable, hentry, hparents,
    firstSomeM, ite_self]
  rfl

theorem weave_pay (n : Nat) : MethodWeaver.weave (index (payee n)).hierarchy
    (.exact (index (payee n)).hierarchy) (payee n) (pay n) = .ok ⟨pay (n + 1), none⟩ := by
  have hwiden : Config.widen {} (pay n).signature = (pay (n + 1)).signature := by
    simp [Config.widen, Signature.withParam, pay, List.replicate_succ']
  have hstatic : (pay n).isStatic = false := by
    have : Access.none.contains .static = false := by decide
    exact this
  have hcheck : MethodWeaver.checkEntry (.exact (index (payee n)).hierarchy) (payee n) (pay n)
      .entry = .ok () := by
    simp only [MethodWeaver.checkEntry, hstatic]
    rfl
  unfold MethodWeaver.weave
  change (Oracle.exact (index (payee n)).hierarchy).role {}
    ⟨"shop.Payee", "pay", (pay n).signature⟩ >>= _ = _
  rw [role_pay]
  change MethodWeaver.checkEntry (.exact (index (payee n)).hierarchy) (payee n) (pay n) .entry >>=
    _ = _
  rw [hcheck]
  change Except.ok (⟨{ pay n with signature := Config.widen {} (pay n).signature }, none⟩ :
    WovenMethod) = _
  rw [hwiden]
  rfl

/-- Each pass adds one more contract. -/
theorem widen_payee (n : Nat) :
    ∃ w, weaveArchive (archive (payee n)) [] {} = .ok w ∧ w.result = archive (payee (n + 1)) := by
  have hmethods : (payee n).methods.mapM (MethodWeaver.weave (index (payee n)).hierarchy
      (.exact (index (payee n)).hierarchy) (payee n)) = .ok [⟨pay (n + 1), none⟩] := by
    rw [payee, List.mapM_cons, ← payee, weave_pay]
    rfl
  obtain ⟨wc, hwc, hresult⟩ := ClassWeaver.weave_of_plain
    (fun hclass => by cases (isInterface_payee n).symm.trans hclass) hmethods
  exact exists_woven (payee_reads_back n) (payee_acyclic n) hwc hresult

theorem archive_payee_injective {n k : Nat} (h : archive (payee n) = archive (payee k)) :
    n = k := by
  have hbytes : (payee n).toBytes = (payee k).toBytes := by
    simpa [archive] using congrArg Archive.entries h
  have hpayee : payee n = payee k := by
    refine eq_of_toBytes_eq ?_ hbytes
    rw [hbytes]
    exact payee_reads_back k
  have hlength := congrArg (fun c : ClassDef => c.methods.map fun m => m.signature.params.length)
    hpayee
  simpa [payee, pay] using hlength

/-- The second pass widens what the first one has widened, though there is no class but an
interface. -/
theorem pay_widened_twice : (index (payee 0)).hierarchy.Acyclic ∧
    (∀ c ∈ (archive (payee 0)).classes, c.isInterface = true) ∧
    ∃ w w', weaveArchive (archive (payee 0)) [] {} = .ok w ∧
      weaveArchive w.result [] {} = .ok w' ∧ w'.result ≠ w.result := by
  refine ⟨payee_acyclic 0, ?_, ?_⟩
  · rw [classes_archive (payee_reads_back 0)]
    exact List.forall_mem_singleton.2 (isInterface_payee 0)
  · obtain ⟨w, hw, hresult⟩ := widen_payee 0
    obtain ⟨w', hw', hresult'⟩ := widen_payee 1
    rw [← hresult] at hw'
    have hne : w'.result ≠ w.result := by
      rw [hresult, hresult']
      intro heq
      exact absurd (archive_payee_injective heq) (by decide)
    exact ⟨w, w', hw, hw', hne⟩

end Only

end StorageWeave.Weaving
