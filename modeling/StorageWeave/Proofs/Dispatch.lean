import StorageWeave.Proofs.Calls
import StorageWeave.Proofs.Inheritance
import StorageWeave.Proofs.Lineage

/-!
# Entries under dispatch

A method is widened by the role it has at the class that declares it, and a call by the role that
the method has at the class it names. Dispatch comes to the woven method exactly if these are both
entries or both not, provided that no other method stands in the way (`dispatch_agrees`).

A class inherits the mark of an entry from its parents, unless it hides the method (`Hides`). So the
roles agree where marks also go up, and where a class that hides a marked method has its own mark
(`UniformlyMarked`).
-/

namespace StorageWeave

open Bytecode Weaving Machine

/-! ## What dispatch finds -/

namespace Machine.Program

variable {p : Program} {first name : String} {signature : Signature}

/-- A call from a class runs `m` of `c`, the first class up, the `n`-th one, with code for it. -/
structure Finds (p : Program) (first name : String) (signature : Signature) (n : Nat)
    (c : ClassDef) (m : MethodDef) : Prop where
  climb : climb p.superclassOf n first = some c.name
  loaded : p.classes.get? c.name = some c
  declared : c.method? name signature = some m
  code : m.code.isSome
  below : ∀ k < n, ∀ y d, Weaving.climb p.superclassOf k first = some y →
    p.classes.get? y = some d → codeOf? d name signature = none

theorem Finds.resolve {n : Nat} {c : ClassDef} {m : MethodDef}
    (h : p.Finds first name signature n c m) :
    ∃ code, m.code = some code ∧ p.resolve first name signature = .ok (.code code) := by
  obtain ⟨code, hcode⟩ := Option.isSome_iff_exists.1 h.code
  refine ⟨code, hcode, resolve_inherited h.loaded ?_ h.climb h.below⟩
  rw [codeOf?, h.declared, Option.bind_some, hcode]

/-- The code that a call runs is that of a method which dispatch finds. -/
theorem exists_finds (hnames : ∀ n c, p.classes.get? n = some c → c.name = n) {code : Code}
    (h : p.resolve first name signature = .ok (.code code)) :
    ∃ n c m, p.Finds first name signature n c m ∧ m.code = some code := by
  have hfrom : ∀ fuel current, p.resolveFrom first name signature fuel current = .ok (.code code) →
      ∃ n c m, p.Finds current name signature n c m ∧ m.code = some code := by
    intro fuel
    induction fuel with
    | zero => exact nofun
    | succ fuel ih =>
      intro current h
      rw [resolveFrom] at h
      rcases hc : p.classes.get? current with _ | c
      · rw [hc] at h
        cases h
      simp only [hc] at h
      rcases hcode : codeOf? c name signature with _ | code'
      · simp only [hcode] at h
        rcases hs : c.superclass with _ | s
        · simp only [hs] at h
          cases h
        simp only [hs] at h
        obtain ⟨n, d, m, hfinds, hm⟩ := ih s h
        have hnext : p.superclassOf current = some s := by
          rw [superclassOf, hc, Option.bind_some, hs]
        refine ⟨n + 1, d, m, ⟨?_, hfinds.loaded, hfinds.declared, hfinds.code, ?_⟩, hm⟩
        · rw [climb_succ_of_next hnext]
          exact hfinds.climb
        · rintro (_ | k) hk y e hy he
          · cases hy
            cases hc.symm.trans he
            exact hcode
          · rw [climb_succ_of_next hnext] at hy
            exact hfinds.below k (by omega) y e hy he
      · simp only [hcode] at h
        cases h
        obtain ⟨m, hm, hmcode⟩ := Option.bind_eq_some_iff.1 hcode
        obtain rfl := hnames _ _ hc
        exact ⟨0, c, m, ⟨rfl, hc, hm, by rw [hmcode]; rfl, fun k hk => absurd hk k.not_lt_zero⟩,
          hmcode⟩
  exact hfrom _ first h

end Machine.Program

/-! ## Woven classes side by side -/

section Find

variable {α β : Type} {R : α → β → Prop} {as : List α} {bs : List β} {p : α → Bool} {q : β → Bool}

/-- What is first among related elements comes from an element that is first in its way too. -/
theorem exists_of_find?_eq_some (h : List.Forall₂ R as bs) {b : β} (hb : bs.find? q = some b) :
    ∃ a ∈ as, R a b ∧
      ((∀ a' b', R a' b' → p a' = true → q b' = true) → p a = true → as.find? p = some a) := by
  induction h with
  | nil => cases hb
  | @cons a b₀ as bs hab _ ih =>
    rw [List.find?_cons] at hb
    cases hq : q b₀ with
    | true =>
      rw [hq] at hb
      cases hb
      exact ⟨a, List.mem_cons_self, hab, fun _ hp => by rw [List.find?_cons, hp]⟩
    | false =>
      rw [hq] at hb
      obtain ⟨a', ha', hr, hfirst⟩ := ih hb
      refine ⟨a', List.mem_cons_of_mem a ha', hr, fun hpq hp => ?_⟩
      have hpa : p a = false := by
        by_contra hpa
        rw [hpq a b₀ hab (by simpa using hpa)] at hq
        cases hq
      rw [List.find?_cons, hpa]
      exact hfirst hpq hp

end Find

namespace Weaving

variable {h : Hierarchy} {c c' : ClassDef} {ms : List WovenMethod} {added : List MethodDef}
  {name : String} {signature signature' : Signature}

/-- A class without code for a call has none for its woven form, unless it is another method. -/
theorem Output.codeOf?_eq_none (hout : Output h c c' ms added)
    (hnone : Program.codeOf? c name signature = none)
    (hothers : ∀ m ∈ c.methods, m.name = name → m.signature ≠ signature → m.code.isSome →
      ∀ role, (Oracle.exact h).role h.config ⟨c.name, name, m.signature⟩ = .ok role →
        role.signature h.config m.signature ≠ signature')
    (hadded : ∀ m ∈ added, ¬ (m.name = name ∧ m.signature = signature')) :
    Program.codeOf? c' name signature' = none := by
  have hnew : added.find? (·.isNamed name signature') = none := by
    rw [List.find?_eq_none]
    intro m hm
    simpa [MethodDef.isNamed] using hadded m hm
  rw [Program.codeOf?, ClassDef.method?, hout.methods, List.find?_append, hnew, Option.or_none,
    List.find?_map]
  rcases hfound : ms.find? _ with _ | wm
  · rfl
  obtain ⟨m, hm, hw, hfirst⟩ := exists_of_find?_eq_some (p := (·.isNamed name signature))
    hout.woven hfound
  obtain ⟨role, hrole, hname, hsignature, hcode⟩ := MethodWeaver.exists_role hw
  obtain ⟨rfl, rfl⟩ : wm.method.name = name ∧ wm.method.signature = signature' := by
    simpa [MethodDef.isNamed] using List.find?_some hfound
  have hnocode : m.code = none := by
    by_contra hsome
    have hsome : m.code.isSome := Option.isSome_iff_ne_none.2 hsome
    by_cases hs : m.signature = signature
    · subst hs
      have hdeclared : c.method? wm.method.name m.signature = some m := by
        refine hfirst (fun m' wm' hw' hnamed => ?_) (by simp [MethodDef.isNamed, hname])
        obtain ⟨role', hrole', hname', hsignature', -⟩ := MethodWeaver.exists_role hw'
        obtain ⟨hn, hs⟩ : m'.name = wm.method.name ∧ m'.signature = m.signature := by
          simpa [MethodDef.isNamed] using hnamed
        rw [hn, hs, hname] at hrole'
        cases hrole.symm.trans hrole'
        simp [MethodDef.isNamed, hname', hn, hsignature', hs, hsignature]
      rw [Program.codeOf?, hdeclared, Option.bind_some] at hnone
      rw [hnone] at hsome
      cases hsome
    · rw [hname] at hothers
      exact hothers m hm rfl hs hsome role hrole hsignature.symm
  rw [hnocode] at hcode
  exact Option.not_isSome_iff_eq_none.1 (by simp [hcode])

/-- A class declares the woven form of a method that it declares, unless it is another method. -/
theorem Output.method?_eq_some (hout : Output h c c' ms added) {m : MethodDef} {role : Role}
    (hm : c.method? name signature = some m)
    (hrole : (Oracle.exact h).role h.config ⟨c.name, name, signature⟩ = .ok role)
    (hothers : ∀ m ∈ c.methods, m.name = name → m.signature ≠ signature →
      ∀ r, (Oracle.exact h).role h.config ⟨c.name, name, m.signature⟩ = .ok r →
        r.signature h.config m.signature ≠ role.signature h.config signature) :
    ∃ wm, MethodWeaver.weave h (.exact h) c m = .ok wm ∧
      c'.method? name (role.signature h.config signature) = some wm.method := by
  have hrel := rel_find? (P := (·.isNamed name signature))
    (Q := (·.method.isNamed name (role.signature h.config signature))) ?_ hout.woven
  · rw [show c.methods.find? _ = some m from hm] at hrel
    rcases hfound : ms.find? (·.method.isNamed name (role.signature h.config signature)) with _ | wm
    · rw [hfound] at hrel
      cases hrel
    · rw [hfound] at hrel
      cases hrel with
      | some hw =>
        refine ⟨wm, hw, ?_⟩
        rw [ClassDef.method?, hout.methods, List.find?_append, List.find?_map]
        simp only [Function.comp_def, hfound, Option.map_some, Option.some_or]
  · intro m' hm' wm hw
    obtain ⟨role', hrole', hname, hsignature, -⟩ := MethodWeaver.exists_role hw
    rw [Bool.eq_iff_iff]
    simp only [MethodDef.isNamed, decide_eq_true_eq, hname, hsignature]
    constructor
    · rintro ⟨rfl, rfl⟩
      cases hrole.symm.trans hrole'
      exact ⟨rfl, rfl⟩
    · rintro ⟨rfl, hs⟩
      refine ⟨rfl, ?_⟩
      by_contra hne
      exact hothers m' hm' rfl hne role' hrole' hs

end Weaving

/-- The methods that a class is given have synthetic names, but for the constructor. -/
theorem Weaving.Augmentation.isSynthetic_of_mem_added {h : Hierarchy} {c : ClassDef}
    {ms : List MethodDef} (hms : added h c = .ok ms) {m : MethodDef} (hm : m ∈ ms) :
    Names.isSynthetic m.name = true ∨ m.name = constructorName := by
  unfold added at hms
  split at hms
  · obtain ⟨k, -, hms⟩ := bind_eq_ok.1 hms
    exact isSynthetic_of_mem_memberNames (name_mem_memberNames hms hm)
  · cases hms
    cases hm

/-- An archive that is woven by itself, and the hierarchy of its classes. -/
structure WovenAlone (input : Archive) (w : WovenArchive) (h : Hierarchy) : Prop where
  woven : weaveArchive input [] h.config = .ok w
  indexed : ∃ built, ClassIndex.build [input] = .ok built ∧ built.index = h.index
  distinctNames : DistinctNames input.classes

namespace WovenAlone

variable {input : Archive} {w : WovenArchive} {h : Hierarchy}

theorem get?_ofClasses (hw : WovenAlone input w h) (n : String) :
    (Program.ofClasses input.classes).classes.get? n = h.index.get? n := by
  obtain ⟨built, hbuilt, hindex⟩ := hw.indexed
  rw [← hindex, Weaving.get?_ofClasses hbuilt hw.distinctNames]

/-- The woven classes are loaded in the place of the given ones. -/
theorem rel_program (hw : WovenAlone input w h) (n : String) :
    Option.Rel (fun c c' => ∃ ms added, Output h c c' ms added)
      ((Program.ofClasses input.classes).classes.get? n) (w.program.classes.get? n) := by
  obtain ⟨built, hbuilt, hindex⟩ := hw.indexed
  obtain ⟨built', hbuilt', hclasses⟩ := weaveArchive_exact hw.woven
  cases hbuilt.symm.trans hbuilt'
  rw [hindex] at hclasses
  refine Program.rel_ofClasses ?_ (List.forall₂_map_right_iff.2 (hclasses.imp ?_)) n
  · rintro c c' ⟨ms, added, hout⟩
    exact hout.name
  · exact fun _ _ => ClassWeaver.exists_output

theorem exists_output (hw : WovenAlone input w h) {n : String} {c : ClassDef}
    (hc : (Program.ofClasses input.classes).classes.get? n = some c) :
    ∃ c' ms added, w.program.classes.get? n = some c' ∧ Output h c c' ms added := by
  have hrel := hw.rel_program n
  rw [hc] at hrel
  rcases hc' : w.program.classes.get? n with _ | c'
  · rw [hc'] at hrel
    cases hrel
  · rw [hc'] at hrel
    cases hrel with
    | some hout =>
      obtain ⟨ms, added, hout⟩ := hout
      exact ⟨c', ms, added, rfl, hout⟩

theorem superclassOf_eq (hw : WovenAlone input w h) :
    w.program.superclassOf = (Program.ofClasses input.classes).superclassOf := by
  funext n
  have hrel := hw.rel_program n
  unfold Program.superclassOf
  generalize (Program.ofClasses input.classes).classes.get? n = x at hrel
  generalize w.program.classes.get? n = y at hrel
  cases hrel with
  | none => rfl
  | some hout =>
    obtain ⟨ms, added, hout⟩ := hout
    exact hout.superclass

end WovenAlone

/-- Weaving makes the method `m'` of `c'` of the method `m` of `c`. -/
structure WovenTo (w : WovenArchive) (h : Hierarchy) (c : ClassDef) (m : MethodDef) (c' : ClassDef)
    (m' : MethodDef) : Prop where
  loaded : w.program.classes.get? c.name = some c'
  mem : m' ∈ c'.methods
  woven : ∃ prologue, MethodWeaver.weave h (.exact h) c m = .ok ⟨m', prologue⟩

theorem WovenAlone.exists_wovenTo {input : Archive} {w : WovenArchive} {h : Hierarchy}
    (hw : WovenAlone input w h) {c : ClassDef} {m : MethodDef}
    (hc : (Program.ofClasses input.classes).classes.get? c.name = some c) (hm : m ∈ c.methods) :
    ∃ c' m', WovenTo w h c m c' m' := by
  obtain ⟨c', ms, added, hc', hout⟩ := hw.exists_output hc
  obtain ⟨wm, hwm, hweave⟩ := exists_of_forall₂_right hout.woven.flip hm
  refine ⟨c', wm.method, hc', ?_, wm.prologue, hweave⟩
  rw [hout.methods]
  exact List.mem_append_left _ (List.mem_map_of_mem hwm)

/-! ## Where roles agree -/

namespace Weaving.Hierarchy

variable {h : Hierarchy} {name : String} {signature : Signature} {x y : String}

/-- A class declares a method or inherits a declaration. -/
def HasMethod (h : Hierarchy) (name : String) (signature : Signature) (x : String) : Prop :=
  ∃ y c, h.Inherits x y ∧ h.index.get? y = some c ∧ (c.method? name signature).isSome

/-- A method has the mark of an entry at a class: it declares or inherits an annotation for it. -/
def MarkedAt (h : Hierarchy) (name : String) (signature : Signature) (x : String) : Prop :=
  ∃ kind ∈ [h.config.payableAnnotation, h.config.entryAnnotation], ∃ chain a,
    h.Carries kind ⟨x, name, signature⟩ chain a

/-- A class inherits no annotation of a method: it is a constructor, or the declaration of the class
stops the inheritance. -/
def Hides (h : Hierarchy) (name : String) (signature : Signature) (x : String) : Prop :=
  name = constructorName ∨
    ∃ c m, h.index.get? x = some c ∧ c.method? name signature = some m ∧ h.shadows m = true

/-- A method that is marked at a class is so at each parent that has the method, and a class that
hides a method which is marked at a parent marks it too. -/
structure UniformlyMarked (h : Hierarchy) (name : String) (signature : Signature) : Prop where
  up : ∀ x y, h.Parent x y → h.HasMethod name signature y → h.MarkedAt name signature x →
    h.MarkedAt name signature y
  hidden : ∀ x y, h.Parent x y → h.Hides name signature x → h.MarkedAt name signature y →
    h.MarkedAt name signature x

/-- **A method is an entry where it is marked.** -/
theorem markedAt_iff {role : Role}
    (hrole : (Oracle.exact h).role h.config ⟨x, name, signature⟩ = .ok role) :
    h.MarkedAt name signature x ↔ role.isEntry = true := by
  obtain ⟨payable, hpayable, hrole⟩ := bind_eq_ok.1 hrole
  simp only [MarkedAt, List.mem_cons, List.not_mem_nil, or_false, exists_eq_or_imp,
    exists_eq_left, exists_carries_iff hpayable]
  split at hrole
  · next hsome =>
    cases hrole
    exact ⟨fun _ => rfl, fun _ => .inl hsome⟩
  · next hnone =>
    obtain ⟨entry, hentry, hrole⟩ := bind_eq_ok.1 hrole
    rw [exists_carries_iff hentry]
    split at hrole
    · next hsome =>
      cases hrole
      exact ⟨fun _ => rfl, fun _ => .inr hsome⟩
    · next hnone' =>
      cases hrole
      simp [hnone, hnone', Role.isEntry]

/-- **A class inherits a mark** from a parent, unless it hides the method. -/
theorem MarkedAt.of_parent (hy : h.MarkedAt name signature y) (hxy : h.Parent x y)
    (hhides : ¬ h.Hides name signature x) : h.MarkedAt name signature x := by
  obtain ⟨kind, hkind, chain, a, hcarries⟩ := hy
  obtain ⟨c, hc, -⟩ := id hxy
  have hname : name ≠ constructorName := fun hname => hhides (.inl hname)
  refine ⟨kind, hkind, ?_⟩
  by_cases hmarks : ∃ b, h.Marks kind ⟨x, name, signature⟩ b
  · obtain ⟨b, hmarks⟩ := hmarks
    exact ⟨_, b, carries_singleton hmarks⟩
  refine ⟨x :: chain, a, hcarries.cons ⟨c, hc, fun d hd => ⟨?_, ?_, ?_⟩⟩ hname hxy⟩
  · by_contra hsome
    obtain ⟨b, hb⟩ := Option.ne_none_iff_exists'.1 hsome
    exact hmarks ⟨b, c, d, hc, hd, hb⟩
  · simpa [MethodDef.isConstructor, (ClassDef.mem_of_method? hd).2.1] using hname
  · by_contra hshadows
    exact hhides (.inr ⟨c, d, hc, hd, by simpa using hshadows⟩)

theorem HasMethod.of_inherits (hy : h.HasMethod name signature y) (hxy : h.Inherits x y) :
    h.HasMethod name signature x := by
  obtain ⟨z, c, hyz, hc⟩ := hy
  exact ⟨z, c, hxy.trans hyz, hc⟩

/-- All classes that inherit a uniformly marked method agree with the class they have it from. -/
theorem UniformlyMarked.iff_of_inherits (hu : h.UniformlyMarked name signature)
    (hxy : h.Inherits x y) (hy : h.HasMethod name signature y) :
    h.MarkedAt name signature x ↔ h.MarkedAt name signature y := by
  induction hxy using Relation.ReflTransGen.head_induction_on with
  | refl => rfl
  | @head x z hparent hrest ih =>
    refine Iff.trans ⟨hu.up x z hparent (hy.of_inherits hrest), fun hz => ?_⟩ ih
    by_cases hhides : h.Hides name signature x
    · exact hu.hidden x z hparent hhides hz
    · exact hz.of_parent hparent hhides

end Weaving.Hierarchy

theorem WovenAlone.inherits_of_climb {input : Archive} {w : WovenArchive} {h : Hierarchy}
    (hw : WovenAlone input w h) {n : Nat} {x y : String}
    (hclimb : climb (Program.ofClasses input.classes).superclassOf n x = some y) :
    h.Inherits x y := by
  induction n generalizing x with
  | zero =>
    cases hclimb
    exact .refl
  | succ n ih =>
    rw [climb] at hclimb
    obtain ⟨s, hs, hclimb⟩ := Option.bind_eq_some_iff.1 hclimb
    obtain ⟨c, hc, hsuper⟩ := Option.bind_eq_some_iff.1 hs
    rw [hw.get?_ofClasses] at hc
    exact .head ⟨c, hc, by simp [hsuper]⟩ (ih hclimb)

/-! ## Calls and declarations -/

/--
No other method stands in the way of a call with a woven signature from a class to the `n`-th class
up: none of a class up to that one is woven to the signature (below that class, none with code), and
none is added to a class below that one with it.
-/
structure Unobstructed (h : Hierarchy) (p : Program) (first name : String)
    (signature woven : Signature) (n : Nat) : Prop where
  declared : ∀ k ≤ n, ∀ y c, climb p.superclassOf k first = some y → p.classes.get? y = some c →
    ∀ m ∈ c.methods, m.name = name → m.signature ≠ signature → (k < n → m.code.isSome) →
      ∀ role, (Oracle.exact h).role h.config ⟨c.name, name, m.signature⟩ = .ok role →
        role.signature h.config m.signature ≠ woven
  added : ∀ k < n, ∀ y c, climb p.superclassOf k first = some y → p.classes.get? y = some c →
    ∀ ms, Augmentation.added h c = .ok ms → ∀ m ∈ ms, ¬ (m.name = name ∧ m.signature = woven)

section

variable {input : Archive} {w : WovenArchive} {h : Hierarchy} {first name : String}
  {signature : Signature} {n : Nat} {d d' : ClassDef} {target target' : MethodDef}

/-- **Dispatch finds the woven method** exactly if the call was woven for its role. -/
theorem WovenAlone.finds_iff (hw : WovenAlone input w h)
    (hfinds : (Program.ofClasses input.classes).Finds first name signature n d target)
    (htarget : WovenTo w h d target d' target') {called declared : Role}
    (hdeclared : (Oracle.exact h).role h.config ⟨d.name, name, signature⟩ = .ok declared)
    (hclear : Unobstructed h (.ofClasses input.classes) first name signature
      (called.signature h.config signature) n) :
    w.program.Finds first name (called.signature h.config signature) n d' target' ↔
      called.isEntry = declared.isEntry := by
  obtain ⟨prologue, hweave⟩ := htarget.woven
  obtain ⟨-, hname, hsignature⟩ := ClassDef.mem_of_method? hfinds.declared
  obtain ⟨role, hrole, -, hsignature', hcode⟩ := MethodWeaver.exists_role hweave
  rw [hname, hsignature, hdeclared] at hrole
  cases hrole
  rw [hsignature] at hsignature'
  obtain ⟨d'', ms, added, hd'', hout⟩ := hw.exists_output hfinds.loaded
  cases htarget.loaded.symm.trans hd''
  constructor
  · intro hfound
    obtain ⟨-, -, hs⟩ := ClassDef.mem_of_method? hfound.declared
    exact Role.signature_eq_iff.1 (hs.symm.trans hsignature')
  · intro hagree
    have hs : called.signature h.config signature = declared.signature h.config signature :=
      Role.signature_eq_iff.2 hagree
    rw [hs] at hclear ⊢
    refine ⟨?_, ?_, ?_, ?_, ?_⟩
    · rw [hw.superclassOf_eq, hout.name]
      exact hfinds.climb
    · rw [hout.name]
      exact htarget.loaded
    · obtain ⟨wm, hwm, hfound⟩ := hout.method?_eq_some hfinds.declared hdeclared
        fun m hm hn hne => hclear.declared n (Nat.le_refl n) d.name d hfinds.climb hfinds.loaded m
          hm hn hne fun hlt => absurd hlt (Nat.lt_irrefl n)
      cases hweave.symm.trans hwm
      exact hfound
    · exact hcode.trans hfinds.code
    · intro k hk y c' hy hc'
      rw [hw.superclassOf_eq] at hy
      have hrel := hw.rel_program y
      rw [hc'] at hrel
      rcases hc : (Program.ofClasses input.classes).classes.get? y with _ | c
      · rw [hc] at hrel
        cases hrel
      rw [hc] at hrel
      cases hrel with
      | some hrel =>
        obtain ⟨ms, added, hout⟩ := hrel
        refine hout.codeOf?_eq_none (hfinds.below k hk y c hy hc) ?_ ?_
        · exact fun m hm hn hne hsome => hclear.declared k (by omega) y c hy hc m hm hn hne
            fun _ => hsome
        · exact hclear.added k hk y c hy hc added hout.given

/--
**Calls and declarations of entries under dispatch.** A call of `owner.name` in an archive is woven
with the signature of the role at `owner`, and the method `target` of `d` that dispatch from `first`
finds for it with the signature of the role at `d`. If nothing stands in the way, dispatch finds the
woven method for the woven call exactly if both are entries or both are not. They are if the method
is uniformly marked and `first` inherits it from `owner`.
-/
theorem dispatch_agrees (hw : WovenAlone input w h) {c : ClassDef} (hc : c ∈ input.classes)
    {m : MethodDef} (hm : m ∈ c.methods) {code : Code} (hcode : m.code = some code)
    {kind : InvokeKind} {owner : String} (hcall : .invoke kind owner name signature ∈ code)
    (hfinds : (Program.ofClasses input.classes).Finds first name signature n d target) :
    ∃ (called declared : Role) (c' d' : ClassDef) (m' target' : MethodDef) (woven : Code),
      WovenTo w h c m c' m' ∧ m'.code = some woven ∧
      (Oracle.exact h).role h.config ⟨owner, name, signature⟩ = .ok called ∧
      .invoke kind owner name (called.signature h.config signature) ∈ woven ∧
      WovenTo w h d target d' target' ∧
      (Oracle.exact h).role h.config ⟨d.name, name, signature⟩ = .ok declared ∧
      (Unobstructed h (.ofClasses input.classes) first name signature
          (called.signature h.config signature) n →
        (w.program.Finds first name (called.signature h.config signature) n d' target' ↔
          called.isEntry = declared.isEntry)) ∧
      (h.UniformlyMarked name signature → h.Inherits first owner →
        h.HasMethod name signature owner → called.isEntry = declared.isEntry) := by
  obtain ⟨htarget, hname, hsignature⟩ := ClassDef.mem_of_method? hfinds.declared
  obtain ⟨built, hbuilt, hindex⟩ := hw.indexed
  have hc' : (Program.ofClasses input.classes).classes.get? c.name = some c := by
    rw [hw.get?_ofClasses, ← hindex]
    exact get?_index hbuilt hw.distinctNames hc
  obtain ⟨c', m', hm'⟩ := hw.exists_wovenTo hc' hm
  obtain ⟨d', target', htarget'⟩ := hw.exists_wovenTo hfinds.loaded htarget
  obtain ⟨prologue, hweave⟩ := hm'.woven
  obtain ⟨called, woven, hcalled, hwoven, hmem⟩ := MethodWeaver.invoke_mem_woven hweave hcode hcall
  obtain ⟨prologue', hweave'⟩ := htarget'.woven
  obtain ⟨declared, hdeclared, -⟩ := MethodWeaver.exists_role hweave'
  rw [hname, hsignature] at hdeclared
  refine ⟨called, declared, c', d', m', target', woven, hm', hwoven, hcalled, hmem, htarget',
    hdeclared, hw.finds_iff hfinds htarget' hdeclared, ?_⟩
  intro huniform hinherits hhas
  have hdhas : h.HasMethod name signature d.name := by
    refine ⟨d.name, d, .refl, ?_, by rw [hfinds.declared]; rfl⟩
    rw [← hw.get?_ofClasses]
    exact hfinds.loaded
  rw [Bool.eq_iff_iff, ← Hierarchy.markedAt_iff hcalled, ← Hierarchy.markedAt_iff hdeclared,
    ← huniform.iff_of_inherits hinherits hhas,
    huniform.iff_of_inherits (hw.inherits_of_climb hfinds.climb) hdhas]

end

/-! ## Tills -/

namespace Tills

/-- The signature of a payment with its caller. -/
def widened : Signature := ⟨[.reference "runtime.Contract"], none⟩

/-- An interface with an entry. -/
def payee : ClassDef where
  name := "shop.Payee"
  superclass := some "lang.Object"
  access := .interface
  methods := [{ name := "pay", signature := .void, annotations := [⟨"runtime.Entry", none⟩] }]

/-- A method that pays by the interface. -/
def pay : MethodDef where
  name := "pay"
  signature := .void
  code := some [.loadThis, .invoke .interface "shop.Payee" "pay" .void, .return none]

/-- A contract that implements the interface. -/
def till : ClassDef where
  name := "shop.Till"
  superclass := some "runtime.Contract"
  interfaces := ["shop.Payee"]
  methods := [pay]

/-- A till that inherits the method. -/
def booth : ClassDef where
  name := "shop.Booth"
  superclass := some "shop.Till"

/-- A till with a method of the widened signature. -/
def desk : ClassDef where
  name := "shop.Desk"
  superclass := some "shop.Till"
  methods := [{ name := "pay", signature := widened, code := some [.throw] }]

/-- A contract that does not know the interface. -/
def safe : ClassDef where
  name := "shop.Safe"
  superclass := some "runtime.Contract"
  methods := [{ name := "pay", signature := .void, code := some [.return none] }]

/-- A class below that implements it with the inherited method. -/
def vault : ClassDef where
  name := "shop.Vault"
  superclass := some "shop.Safe"
  interfaces := ["shop.Payee"]

def classes : List ClassDef := [payee, till, booth, desk, safe, vault]

def archive : Archive where
  entries := classes.map fun c => ⟨c.name ++ ".class", c.toBytes⟩
  distinct := by decide

def index : ClassIndex.Building where
  index := ⟨classes.map fun c => ⟨c, c.toBytes⟩⟩

theorem woven : archive.classes = classes ∧ ClassIndex.build [archive] = .ok index ∧
    wovenClasses archive = .ok (classes.map (wovenResult index.hierarchy)) :=
  woven_of_stored (by decide) rfl (by decide) (by decide) (by decide +kernel)

theorem exists_wovenAlone : ∃ w, WovenAlone archive w index.hierarchy ∧
    w.program = Program.ofClasses (classes.map (wovenResult index.hierarchy)) := by
  obtain ⟨hclasses, hindex, hwoven⟩ := woven
  obtain ⟨w, hw, hprogram⟩ := exists_weaveArchive hwoven
  refine ⟨w, ⟨hw, ⟨_, hindex, rfl⟩, ?_⟩, hprogram⟩
  rw [hclasses]
  unfold DistinctNames
  decide

theorem mem_till : till ∈ archive.classes := by
  rw [woven.1]
  exact List.mem_cons_of_mem _ List.mem_cons_self

/-- The call of the interface is one of an entry. -/
theorem role_payee : (Oracle.exact index.hierarchy).role index.hierarchy.config
    ⟨"shop.Payee", "pay", .void⟩ = .ok .entry := by
  decide

/-- Dispatch finds an inherited payment. -/
theorem finds_pay (first owner : ClassDef) {m : MethodDef} (hfirst : first ∈ [booth, desk, vault])
    (hsuper : first.superclass = some owner.name) (howner : owner ∈ [till, safe])
    (hm : owner.method? "pay" .void = some m) (hcode : m.code.isSome) :
    (Program.ofClasses archive.classes).Finds first.name "pay" .void 1 owner m := by
  have hloaded : ∀ c ∈ [booth, desk, vault] ++ [till, safe],
      (Program.ofClasses classes).classes.get? c.name = some c := by
    decide
  have hnone : ∀ c ∈ [booth, desk, vault], Program.codeOf? c "pay" .void = none := by
    decide
  have hget := hloaded first (List.mem_append_left _ hfirst)
  rw [woven.1]
  refine ⟨?_, hloaded owner (List.mem_append_right _ howner), hm, hcode, ?_⟩
  · rw [climb_succ_of_next (y := owner.name), climb]
    rw [Program.superclassOf, hget, Option.bind_some, hsuper]
  · intro k hk y d hy hd
    obtain rfl : k = 0 := by omega
    cases hy
    cases hget.symm.trans hd
    exact hnone first hfirst

theorem unobstructed_booth : Unobstructed index.hierarchy (.ofClasses archive.classes) "shop.Booth"
    "pay" .void widened 1 := by
  have hloaded : (Program.ofClasses classes).classes.get? "shop.Booth" = some booth ∧
      (Program.ofClasses classes).classes.get? "shop.Till" = some till ∧
      (Program.ofClasses classes).superclassOf "shop.Booth" = some "shop.Till" :=
    ⟨rfl, rfl, rfl⟩
  obtain ⟨hbooth, htill, hsuper⟩ := hloaded
  rw [woven.1]
  refine ⟨?_, ?_⟩
  · rintro (_ | _ | k) hk y c hy hc m hm hname hne -
    · cases hy
      cases hbooth.symm.trans hc
      cases hm
    · rw [climb_succ_of_next hsuper] at hy
      cases hy
      cases htill.symm.trans hc
      obtain rfl := List.mem_singleton.1 hm
      exact absurd rfl hne
    · omega
  · rintro k - y c - - ms hms m hm ⟨hname, -⟩
    have hadded := Augmentation.isSynthetic_of_mem_added hms hm
    rw [hname] at hadded
    revert hadded
    decide

/-- A payment at a booth comes to the till, by the call and the declaration of an entry. -/
theorem booth_dispatch_agrees : ∃ w d' target', WovenAlone archive w index.hierarchy ∧
    WovenTo w index.hierarchy till pay d' target' ∧
    w.program.Finds "shop.Booth" "pay" widened 1 d' target' := by
  obtain ⟨w, hw, -⟩ := exists_wovenAlone
  have hrole : (Oracle.exact index.hierarchy).role index.hierarchy.config
      ⟨"shop.Till", "pay", .void⟩ = .ok .entry := by
    decide +kernel
  obtain ⟨called, declared, c', d', m', target', code, -, -, hcalled, -, htarget, hdeclared, hiff,
      -⟩ :=
    dispatch_agrees hw mem_till (m := pay) List.mem_cons_self rfl
      (List.mem_cons_of_mem _ List.mem_cons_self)
      (finds_pay booth till List.mem_cons_self rfl List.mem_cons_self rfl rfl)
  cases role_payee.symm.trans hcalled
  cases hrole.symm.trans hdeclared
  exact ⟨w, d', target', hw, htarget, (hiff unobstructed_booth).2 rfl⟩

/--
The vault answers the call of the interface with a method that is no entry where it is declared, and
the desk has a method of the widened signature: from both, dispatch goes elsewhere after weaving.
-/
theorem dispatch_strays : ∃ w, WovenAlone archive w index.hierarchy ∧
    (till ∈ archive.classes ∧ pay ∈ till.methods ∧
      ∃ code, pay.code = some code ∧ .invoke .interface "shop.Payee" "pay" .void ∈ code) ∧
    (Oracle.exact index.hierarchy).role index.hierarchy.config ⟨"shop.Payee", "pay", .void⟩ =
      .ok .entry ∧
    (∃ m, index.hierarchy.Inherits "shop.Vault" "shop.Payee" ∧
      (Program.ofClasses archive.classes).Finds "shop.Vault" "pay" .void 1 safe m ∧
      w.program.resolve "shop.Vault" "pay" widened = .ok (.hook "runtime.Contract")) ∧
    index.hierarchy.Inherits "shop.Desk" "shop.Payee" ∧
    (Program.ofClasses archive.classes).Finds "shop.Desk" "pay" .void 1 till pay ∧
    w.program.resolve "shop.Desk" "pay" widened = .ok (.code [.throw]) := by
  obtain ⟨w, hw, hprogram⟩ := exists_wovenAlone
  have hparents : index.hierarchy.index.get? "shop.Vault" = some vault ∧
      index.hierarchy.index.get? "shop.Desk" = some desk ∧
      index.hierarchy.index.get? "shop.Till" = some till := by
    decide +kernel
  obtain ⟨hvault, hdesk, htill⟩ := hparents
  have hfound : (Program.ofClasses (classes.map (wovenResult index.hierarchy))).resolve
      "shop.Vault" "pay" widened = .ok (.hook "runtime.Contract") ∧
      (Program.ofClasses (classes.map (wovenResult index.hierarchy))).resolve
        "shop.Desk" "pay" widened = .ok (.code [.throw]) := by
    decide +kernel
  rw [← hprogram] at hfound
  refine ⟨w, hw, ⟨mem_till, by simp [till], _, rfl, by simp⟩, role_payee,
    ⟨_, .single ⟨vault, hvault, by decide⟩,
      finds_pay vault safe (by simp) rfl (by simp) rfl rfl, hfound.1⟩,
    .head ⟨desk, hdesk, by decide⟩ (.single ⟨till, htill, by decide⟩),
    finds_pay desk till (by simp) rfl (by simp) rfl rfl, hfound.2⟩

end Tills

end StorageWeave
