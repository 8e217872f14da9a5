import StorageWeave.Weaving.Archive

/-!
# Weaving with two oracles

The weaver takes any oracle, in any monad with errors. Two oracles with related answers make related
woven methods, classes and entries, whatever the relation is, as long as it respects results, errors
and sequencing: `Simulation.Agrees.weaveEntry` goes through the weaver once for all such relations.

The errors of the weaver are those of a class (`WeaveError.isOfClass`): it never fails because a
look-up has no end, because two classes share a name or because entries do not fit an archive.
-/

namespace StorageWeave.Weaving

open Bytecode

/-! ## The errors of a class -/

/-- Whether an error is about one class, and not about a look-up or an archive. -/
def WeaveError.isOfClass : WeaveError → Bool
  | .classConflict _ => false
  | .archive _ => false
  | .endlessLookup _ _ => false
  | _ => true

/-- Whether an error is about the members that a storage class is given. -/
def WeaveError.isOfMembers : WeaveError → Bool
  | .unresolvableType _ _ => true
  | .duplicateMember _ _ => true
  | .invalidCode _ _ _ => true
  | _ => false

/-- Whether an error is about the constructor in which a superclass call is searched. -/
def WeaveError.isOfConstructor : WeaveError → Bool
  | .malformedConstructor _ _ _ => true
  | .unsupportedControlFlow _ _ _ => true
  | _ => false

theorem WeaveError.isOfClass_of_isOfConstructor {e : WeaveError} (he : e.isOfConstructor = true) :
    e.isOfClass = true := by
  cases e with
  | classConflict | archive | endlessLookup => cases he
  | _ => rfl

theorem WeaveError.isOfClass_of_isOfMembers {e : WeaveError} (he : e.isOfMembers = true) :
    e.isOfClass = true := by
  cases e with
  | classConflict | archive | endlessLookup => cases he
  | _ => rfl

/-- A computation fails with errors that have `P` only. -/
def FailsWith {α : Type} (P : WeaveError → Prop) (x : Except WeaveError α) : Prop :=
  ∀ e, x = .error e → P e

namespace FailsWith

variable {α β : Type} {P Q : WeaveError → Prop} {x y : Except WeaveError α}

theorem ok (a : α) : FailsWith P (.ok a) := nofun

theorem error {e : WeaveError} (he : P e) : FailsWith P (.error e : Except WeaveError α) := by
  rintro e' ⟨⟩
  exact he

theorem mono (hx : FailsWith P x) (hPQ : ∀ e, P e → Q e) : FailsWith Q x :=
  fun e he => hPQ e (hx e he)

theorem bind {f : α → Except WeaveError β} (hx : FailsWith P x) (hf : ∀ a, FailsWith P (f a)) :
    FailsWith P (x >>= f) := by
  cases x with
  | error e => exact error (hx e rfl)
  | ok a => exact hf a

theorem ite {c : Prop} [Decidable c] (hx : FailsWith P x) (hy : FailsWith P y) :
    FailsWith P (if c then x else y) := by
  split
  · exact hx
  · exact hy

theorem mapError {ε : Type} {z : Except ε α} {f : ε → WeaveError} (hf : ∀ e, P (f e)) :
    FailsWith P (z.mapError f) := by
  cases z with
  | error e => exact error (hf e)
  | ok a => exact ok a

theorem foldlM {f : β → α → Except WeaveError β} (hf : ∀ b a, FailsWith P (f b a)) (as : List α)
    (b : β) : FailsWith P (as.foldlM f b) := by
  induction as generalizing b with
  | nil => exact ok b
  | cons a as ih =>
    rw [List.foldlM_cons]
    exact bind (hf b a) ih

theorem mapM {f : α → Except WeaveError β} (hf : ∀ a, FailsWith P (f a)) (as : List α) :
    FailsWith P (as.mapM f) := by
  induction as with
  | nil => exact ok _
  | cons a as ih =>
    rw [List.mapM_cons]
    exact bind (hf a) fun b => bind ih fun bs => ok _

end FailsWith

/-- A computation fails with errors of a class only. -/
abbrev FailsOfClass {α : Type} (x : Except WeaveError α) : Prop :=
  FailsWith (fun e => e.isOfClass = true) x

/-- A computation fails with errors about a constructor only. -/
abbrev FailsOfConstructor {α : Type} (x : Except WeaveError α) : Prop :=
  FailsWith (fun e => e.isOfConstructor = true) x

/-- A computation fails with errors about the members of a storage class only. -/
abbrev FailsOfMembers {α : Type} (x : Except WeaveError α) : Prop :=
  FailsWith (fun e => e.isOfMembers = true) x

namespace Injection.Problem

variable (p : Problem)

theorem visit_failsOfConstructor (v : Visit) : FailsOfConstructor (p.visit v) := by
  unfold visit
  split
  · exact .error rfl
  refine .ite (.error rfl) (.ite (.error rfl) (.ite (.error rfl) ?_))
  exact .ite (.ite (.ok _) (.error rfl)) (.ok _)

theorem choose_failsOfConstructor (calls : List Nat) : FailsOfConstructor (p.choose calls) := by
  unfold choose
  split
  · exact .error rfl
  · exact .ok _
  · exact .error rfl

theorem step_failsOfConstructor (s : Search) : FailsOfConstructor (p.step s) := by
  unfold step
  split
  · exact .ok _
  · refine .ite (.ok _) (.bind (p.visit_failsOfConstructor _) fun outcome => ?_)
    cases outcome <;> exact .ok _

theorem search_failsOfConstructor (s : Search) (r : Except WeaveError (List Nat))
    (h : p.search s = some r) : FailsOfConstructor r := by
  refine search.partial_correctness p (fun _ r => FailsOfConstructor r) ?_ s r h
  intro search ih s r hr
  have hstep := p.step_failsOfConstructor s
  split at hr
  · next e he =>
    cases hr
    exact .error (hstep e he)
  · cases hr
    exact .ok _
  · exact ih _ _ hr

variable {p}

/-- **A search fails** for its constructor, or has no end. -/
theorem find_eq_error {e : WeaveError} (he : p.find = .error e) :
    e.isOfConstructor = true ∨ e = .endlessSearch p.className p.method ∧
      p.code[0]? = some .loadThis ∧ p.search p.start = none := by
  unfold find at he
  split at he
  · next hfirst =>
    rcases hsearch : p.search p.start with _ | r
    · rw [hsearch] at he
      cases he
      exact .inr ⟨rfl, hfirst, rfl⟩
    · rw [hsearch] at he
      refine .inl (FailsWith.bind ?_ p.choose_failsOfConstructor e he)
      exact p.search_failsOfConstructor _ r hsearch
  · cases he
    exact .inl rfl

theorem find_failsOfClass (p : Problem) : FailsOfClass p.find := by
  intro e he
  obtain he | ⟨rfl, -⟩ := find_eq_error he
  · exact WeaveError.isOfClass_of_isOfConstructor he
  · rfl

end Injection.Problem

theorem Hierarchy.classify_failsOfMembers (h : Hierarchy) (c : ClassDef) :
    FailsOfMembers (h.classify c) := by
  have hlevels (fuel : Nat) (visited : List String) (levels : List (List FieldDef))
      (current : ClassDef) :
      FailsOfMembers (h.eagerLevelsFrom c.name fuel visited levels current) := by
    induction fuel generalizing visited levels current with
    | zero => exact .error rfl
    | succ fuel ih =>
      unfold eagerLevelsFrom
      refine .ite (.error rfl) ?_
      dsimp only
      split
      · exact .error rfl
      · refine .ite (.ok _) ?_
        split
        · exact .error rfl
        · exact ih _ _ _
  exact .bind (hlevels _ _ _ _) fun _ => .ok _

namespace Augmentation

variable (h : Hierarchy) (c : ClassDef)

theorem generated_failsOfMembers (name : String) (signature : Signature) (ds : List Directive) :
    FailsOfMembers (generated c name signature ds) :=
  .bind (.mapError fun _ => rfl) fun _ => .ok _

theorem superclass_failsOfMembers : FailsOfMembers (superclass c) := by
  unfold superclass
  split
  · exact .ok _
  · exact .error rfl

theorem assignSlots_failsOfMembers (slot : UInt16) (fs : List FieldDef) :
    FailsOfMembers (assignSlots c slot fs) := by
  induction fs generalizing slot with
  | nil => exact .ok _
  | cons f fs ih =>
    rw [assignSlots]
    exact .ite (.bind (ih _) fun _ => .ok _) (.error rfl)

theorem addField_failsOfMembers (d : Draft) (f : FieldDef) : FailsOfMembers (d.addField f) :=
  .ite (.error rfl) (.ok _)

theorem addMethod_failsOfMembers (d : Draft) (m : MethodDef) : FailsOfMembers (d.addMethod m) :=
  .ite (.error rfl) (.ok _)

theorem addLazy_failsOfMembers (d : Draft) (f : FieldDef) : FailsOfMembers (addLazy h c d f) := by
  refine .bind (addField_failsOfMembers _ _) fun _ => ?_
  refine .bind (generated_failsOfMembers c _ _ _) fun _ => ?_
  refine .bind (addMethod_failsOfMembers _ _) fun _ => ?_
  refine .bind (generated_failsOfMembers c _ _ _) fun _ => ?_
  refine .bind (addMethod_failsOfMembers _ _) fun _ => ?_
  refine .bind (generated_failsOfMembers c _ _ _) fun _ => ?_
  exact addMethod_failsOfMembers _ _

theorem constructor_failsOfMembers (k : Classification) : FailsOfMembers (constructor h c k) := by
  refine .bind (superclass_failsOfMembers c) fun s => ?_
  refine .bind (assignSlots_failsOfMembers c _ _) fun inherited => ?_
  refine .bind (assignSlots_failsOfMembers c _ _) fun own => ?_
  exact .bind (.mapError fun _ => rfl) fun _ => .ok _

theorem addMembers_failsOfMembers (k : Classification) (d : Draft) :
    FailsOfMembers (addMembers h c k d) := by
  refine .bind (.foldlM (fun _ _ => addField_failsOfMembers _ _) _ _) fun _ => ?_
  refine .bind (.foldlM (addLazy_failsOfMembers h c) _ _) fun _ => ?_
  refine .bind (constructor_failsOfMembers h c k) fun _ => ?_
  refine .bind (addMethod_failsOfMembers _ _) fun _ =>
    .bind ?_ fun _ => addMethod_failsOfMembers _ _
  exact .bind (superclass_failsOfMembers c) fun _ => generated_failsOfMembers c _ _ _

end Augmentation

theorem ClassWeaver.augment_failsOfMembers (h : Hierarchy) (c out : ClassDef) :
    FailsOfMembers (augment h c out) := by
  refine .bind (h.classify_failsOfMembers c) fun k => .bind ?_ fun _ => .ok _
  exact .bind (Augmentation.addMembers_failsOfMembers h c k _) fun _ => .ok _

/-! ## Related computations -/

theorem Correspondence.mapM {m n : Type → Type} [Monad m] [Monad n] (S : Correspondence m n)
    {α β : Type} {f : α → m β} {g : α → n β} (hfg : ∀ a, S.Rel (f a) (g a)) (as : List α) :
    S.Rel (as.mapM f) (as.mapM g) := by
  have hloop (bs : List β) : S.Rel (List.mapM.loop f as bs) (List.mapM.loop g as bs) := by
    induction as generalizing bs with
    | nil => exact S.pure _
    | cons a as ih => exact S.bind (hfg a) fun b => ih (b :: bs)
  exact hloop []

/-- A correspondence of computations that respects the errors of classes. -/
structure Simulation (m n : Type → Type) [Monad m] [MonadExceptOf WeaveError m] [Monad n]
    [MonadExceptOf WeaveError n] extends Correspondence m n where
  throw {α : Type} {e : WeaveError} : e.isOfClass = true →
    Rel (MonadExceptOf.throw e : m α) (MonadExceptOf.throw e : n α)

namespace Simulation

variable {m n : Type → Type} [Monad m] [MonadExceptOf WeaveError m] [Monad n]
  [MonadExceptOf WeaveError n] (S : Simulation m n)

/-- Two oracles give related answers. -/
structure Agrees (o : Oracle m) (o' : Oracle n) : Prop where
  isStorage (name : String) : S.Rel (o.isStorage name) (o'.isStorage name)
  isContract (name : String) : S.Rel (o.isContract name) (o'.isContract name)
  lookUp (kind : String) (ref : MethodRef) :
    S.Rel (Oracle.annotation o kind ref) (Oracle.annotation o' kind ref)

variable {α : Type}

theorem ofExcept {x : Except WeaveError α} (hx : FailsOfClass x) :
    S.Rel (MonadExcept.ofExcept x) (MonadExcept.ofExcept x) := by
  cases x with
  | error e => exact S.throw (hx e rfl)
  | ok a => exact S.pure a

variable {S} {o : Oracle m} {o' : Oracle n} (ho : S.Agrees o o')

include ho

theorem Agrees.role (config : Config) (ref : MethodRef) :
    S.Rel (o.role config ref) (o'.role config ref) := by
  refine S.bind (ho.lookUp _ ref) fun payable => S.ite (S.pure _) ?_
  exact S.bind (ho.lookUp _ ref) fun entry => S.ite (S.pure _) (S.pure _)

theorem Agrees.callerType (config : Config) (ref : MethodRef) :
    S.Rel (o.callerType config ref) (o'.callerType config ref) :=
  S.bind (ho.lookUp _ ref) fun _ => S.pure _

variable (h : Hierarchy) (c : ClassDef) (method : MethodDef)

/-! ### Methods -/

theorem Agrees.checkEntry (role : Role) : S.Rel (MethodWeaver.checkEntry o c method role)
    (MethodWeaver.checkEntry o' c method role) := by
  refine S.ite (S.pure _) (S.ite (S.throw rfl) (S.ite (S.throw rfl) (S.ite ?_ (S.pure _))))
  exact S.bind (ho.isContract c.name) fun contract => S.ite (S.throw rfl) (S.pure _)

theorem Agrees.accessorOwner (owner name : String) (type : FieldType) :
    S.Rel (MethodWeaver.accessorOwner h o c owner name type)
      (MethodWeaver.accessorOwner h o' c owner name type) := by
  refine S.ite (S.pure _) (S.bind (ho.isStorage owner) fun storage => S.ite (S.pure _) ?_)
  split
  · exact S.ite (S.pure _) (S.throw rfl)
  · exact S.pure _

theorem Agrees.redirect (i : Instruction) :
    S.Rel (MethodWeaver.redirect h o c i) (MethodWeaver.redirect h o' c i) := by
  unfold MethodWeaver.redirect
  split
  · refine S.bind (ho.accessorOwner h c _ _ _) fun declaring => ?_
    cases declaring <;> exact S.pure _
  · refine S.bind (ho.accessorOwner h c _ _ _) fun declaring => ?_
    cases declaring <;> exact S.pure _
  · exact S.pure _

theorem Agrees.forwarded? (i : Instruction) : S.Rel (MethodWeaver.forwarded? h o c method i)
    (MethodWeaver.forwarded? h o' c method i) := by
  unfold MethodWeaver.forwarded?
  split
  · refine S.bind (ho.role _ _) fun role => S.ite (S.ite (S.throw rfl) (S.pure _)) (S.pure _)
  · exact S.pure _

theorem Agrees.forward (code : Code) : S.Rel (MethodWeaver.forward h o c method code)
    (MethodWeaver.forward h o' c method code) := by
  refine S.bind (S.mapM (ho.forwarded? h c method) code) fun calls => ?_
  split
  · exact S.pure _
  · exact S.throw rfl

theorem Agrees.injectPrologue (role : Role) (code : Code) :
    S.Rel (MethodWeaver.injectPrologue h o c method role code)
      (MethodWeaver.injectPrologue h o' c method role code) := by
  refine S.bind (S.ite (S.pure _) (S.throw rfl)) fun slot => S.bind ?_ fun position => ?_
  · refine S.ite ?_ (S.pure _)
    split
    · exact S.throw rfl
    · exact S.ofExcept (Injection.Problem.find_failsOfClass _)
  · refine S.bind (ho.callerType _ _) fun expected => ?_
    dsimp only
    split
    · exact S.pure _
    · exact S.throw rfl

theorem Agrees.weaveCode (role : Role) (code : Code) :
    S.Rel (MethodWeaver.weaveCode h o c method role code)
      (MethodWeaver.weaveCode h o' c method role code) := by
  have hcheck (code : Code) : S.Rel (MethodWeaver.checkCode c method code : m Unit)
      (MethodWeaver.checkCode c method code) := by
    unfold MethodWeaver.checkCode
    split
    · exact S.pure _
    · exact S.throw rfl
  refine S.bind (S.mapM (ho.redirect h c) code) fun redirected => ?_
  refine S.bind (ho.forward h c method redirected) fun body => S.ite ?_ ?_
  · refine S.bind (ho.injectPrologue h c method role body) fun injected => ?_
    exact S.bind (hcheck injected.1) fun _ => S.pure _
  · exact S.bind (hcheck body) fun _ => S.pure _

theorem Agrees.weaveMethod :
    S.Rel (MethodWeaver.weave h o c method) (MethodWeaver.weave h o' c method) := by
  refine S.bind (ho.role _ _) fun role => S.bind (ho.checkEntry c method role) fun _ => ?_
  rcases method.code with _ | code
  · exact S.pure _
  · exact S.bind (ho.weaveCode h c method role code) fun woven => S.pure _

/-! ### Classes and entries -/

theorem Agrees.weaveClass : S.Rel (ClassWeaver.weave h o c) (ClassWeaver.weave h o' c) := by
  unfold ClassWeaver.weave
  extract_lets rest rest'
  have hrest (storage : Bool) : S.Rel (rest storage) (rest' storage) := by
    refine S.bind (ho.isContract c.name) fun contract => ?_
    refine S.bind (S.mapM (ho.weaveMethod h c) c.methods) fun methods => S.ite ?_ (S.pure _)
    have haugment := (ClassWeaver.augment_failsOfMembers h c
      { c with methods := methods.map (·.method) }).mono
        fun _ => WeaveError.isOfClass_of_isOfMembers
    exact S.bind (S.ofExcept haugment) fun out => S.pure _
  exact S.ite (S.bind (S.pure false) hrest) (S.bind (ho.isStorage c.name) hrest)

/-- **Entries** are woven to related ones with related answers. -/
theorem Agrees.weaveEntry (e : Archive.Entry) :
    S.Rel (ArchiveWeaver.weaveEntry h o e) (ArchiveWeaver.weaveEntry h o' e) := by
  refine S.ite ?_ (S.pure _)
  split
  · exact S.throw rfl
  · exact S.bind (ho.weaveClass h _) fun woven => S.pure _

end Simulation

end StorageWeave.Weaving
