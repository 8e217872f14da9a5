import StorageWeave.Proofs.Redirection

/-!
# Lazy loading is transparent

A woven program does what the plain one does: from states that agree, a call ends in both or in
neither, with the same result and states that agree again (`WovenApplication.call_transparent`). The
woven program makes at least one step for every step of the plain one, and more only while an
accessor runs in place of a field access (`WovenPair.step`).
-/

namespace StorageWeave

open Bytecode Weaving Machine

namespace Machine

/-- The field access that a frame makes next: the class it names and its receiver. -/
def Frame.access? (f : Frame) : Option (String × Value) :=
  match f.remaining, f.code[f.position]?, f.stack with
  | _ + 1, some (.getField owner _ _), receiver :: _ => some (owner, receiver)
  | _ + 1, some (.putField owner _ _), _ :: receiver :: _ => some (owner, receiver)
  | _, _, _ => none

end Machine

/-- A receiver that is null or an object of a class below the named one. -/
def FitsOwner (h : Hierarchy) (s : State) (owner : String) (v : Value) : Prop :=
  v = .null ∨ ∃ o C, v = .object o ∧ s.className? o = some C ∧ h.descendsFrom owner C = true

/--
A run in which no object becomes persisted or stops being so, and every field access is to null or
to an object of the named class.
-/
structure Orderly (h : Hierarchy) (p : Program) (s : State) (x : Progress) : Prop where
  stored : ∀ n o, (p.after n x).state.stored (.object o) = s.stored (.object o)
  receivers : ∀ n t owner v, p.after n x = .running t → t.frame.access? = some (owner, v) →
    FitsOwner h t.state owner v

/-! ## Threads of a plain program and of its woven form -/

/-- Activations of a method and of its woven form, at the same position. -/
structure FrameWoven (h : Hierarchy) (p p' : Program) (f f' : Frame) : Prop where
  same : f' = { f with code := f'.code }
  code : ∃ c, Redirected h c f.code.toList f'.code.toList
  admissible : ∀ i ∈ f.code.toList, Admissible h p p' i

/-- Threads of a program and of its woven form, at the same position. -/
inductive ProgressWoven (h : Hierarchy) (classes : List ClassDef) (p p' : Program) :
    Progress → Progress → Prop
  | running {f f' : Frame} {callers callers' : List Frame} {s s' : State} :
      FrameWoven h p p' f f' → List.Forall₂ (FrameWoven h p p') callers callers' →
      Agrees h classes s s' →
      ProgressWoven h classes p p' (.running ⟨f, callers, s⟩) (.running ⟨f', callers', s'⟩)
  | ended {r : Except Fault (Option Value)} {s s' : State} : Agrees h classes s s' →
      ProgressWoven h classes p p' (.ended ⟨r, s⟩) (.ended ⟨r, s'⟩)

variable {h : Hierarchy} {classes : List ClassDef} {p p' : Program} {s s' : State}
  {callers callers' : List Frame} {f f' : Frame}

/-- A frame may go on at another position, with another stack and other locals. -/
theorem FrameWoven.withCode (hf : FrameWoven h p p' f f') {g : Frame} (hg : g.code = f.code) :
    FrameWoven h p p' g { g with code := f'.code } :=
  ⟨rfl, by rw [hg]; exact hf.code, by rw [hg]; exact hf.admissible⟩

theorem ProgressWoven.returning (hc : List.Forall₂ (FrameWoven h p p') callers callers')
    (ha : Agrees h classes s s') (v : Option Value) :
    ProgressWoven h classes p p' (.returning v callers s) (.returning v callers' s') := by
  cases hc with
  | nil => exact .ended ha
  | cons hf hc =>
    refine .running ?_ hc ha
    rw [hf.same]
    exact hf.withCode rfl

namespace WovenPair

/-- **A call is entered in both programs**, or it faults or runs a hook in both. -/
theorem enter (hp : WovenPair h classes p p') {call : Call}
    (hadds : ¬ Adds p p' call.name call.signature)
    (hc : List.Forall₂ (FrameWoven h p p') callers callers') (ha : Agrees h classes s s')
    (hkeep : ∀ o, (p.enter call callers s).state.stored (.object o) = s.stored (.object o)) :
    ProgressWoven h classes p p' (p.enter call callers s) (p'.enter call callers' s') := by
  have hrel := hp.callee_rel hadds ha
  revert hrel hkeep
  rw [Program.enter, Program.enter]
  generalize p.callee call s = x
  generalize p'.callee call s' = x'
  rintro hkeep (e | ⟨hcode, hadmissible⟩ | className)
  · exact .ended ha
  · simp only [Frame.start]
    rcases layOut 0 {} call.args with e | locals
    · exact .ended ha
    · exact .running ⟨rfl, ⟨_, hcode⟩, hadmissible⟩ hc ha
  · rw [hp.woven.config]
    rw [hp.config] at hkeep ⊢
    dsimp only at hkeep ⊢
    have hhook := AgreesOn.runHook hp.ordinary ha {} className call.name call.args fun o => by
      rw [← hkeep o]
      rcases (runHook {} className call.name call.args).run s with ⟨_ | v, t⟩
      · rfl
      · exact congrArg (State.stored · _) (Progress.state_returning v callers t).symm
    revert hhook
    rw [AgreesOn]
    rcases (runHook {} className call.name call.args).run s with ⟨r, t⟩
    rcases (runHook {} className call.name call.args).run s' with ⟨r', t'⟩
    rintro ⟨hresult, hagrees⟩
    obtain rfl : r' = r := hresult
    cases r' with
    | error e => exact .ended hagrees
    | ok v => exact .returning hc hagrees v

/-! ## Accesses -/

section Access

variable {owner : String} {r : ResolvedField} {v : Value}

/-- **A lazy field before an access**: its accessors can run, and after them it is as in the plain
program. -/
theorem access (hp : WovenPair h classes p p') (ha : Agrees h classes s s')
    (hr : LazyAt h classes owner r) (hv : FitsOwner h s owner v) :
    (FlagsValid s' v r ∧ ∀ o, v = .object o → s'.stored v ≠ .int 0 → IsStored p' s' o) ∧
      Agrees h classes s (s'.ensure v r) ∧
      (s'.ensure v r).read v r.field.name r.field.type =
        s.read v r.field.name r.field.type ∧
      ∀ o x, s.place? v = some o →
        Agrees h classes (s.write o r.field.name x) ((s'.ensure v r).write o r.field.name x) := by
  rcases hv with rfl | ⟨o, C, rfl, hC, howner⟩
  · exact ⟨⟨⟨⟨0, rfl⟩, 0, rfl⟩, nofun⟩, ha, rfl, nofun⟩
  have hrC : LazyAt h classes C r := hr.below howner
  obtain ⟨hagrees, hhas⟩ := ha.ensure hp.ordinary hp.unique hC hrC
  refine ⟨⟨(ha.lazy o C r hC hrC).1, ?_⟩, hagrees, ?_, ?_⟩
  · rintro o' ⟨⟩ -
    refine hp.isStored ((ha.objects o).trans hC) ?_
    obtain ⟨d, hd, -, hdC⟩ := hrC
    exact Hierarchy.descendsFrom_trans hdC hd.storage
  · rw [(hagrees.lazy o C r hC hrC).2, if_neg hhas]
  · intro o' x ho'
    obtain ⟨heq, -⟩ := State.of_place?_eq_some ho'
    cases heq
    exact hagrees.write_lazy hp.ordinary hp.unique hC hrC hhas x

theorem size_of_fitsOwner (hv : FitsOwner h s owner v) : v.size = 1 := by
  rcases hv with rfl | ⟨o, C, rfl, -⟩ <;> rfl

/-- The accessor of a field is found where the field is declared. -/
theorem gives_get (hp : WovenPair h classes p p') (ha : Agrees h classes s s')
    (hr : LazyAt h classes owner r) (hv : FitsOwner h s owner v) :
    p'.Gives ⟨.special, r.declaring, Names.getter r.field.name, ⟨[], some r.field.type⟩, [v]⟩ s'
      ⟨.ok (some (s.read v r.field.name r.field.type)), s'.ensure v r⟩ := by
  obtain ⟨⟨hflags, hstored⟩, -, hread, -⟩ := hp.access ha hr hv
  obtain ⟨declaring, f⟩ := r
  obtain ⟨d, hd, rfl, -⟩ := hr
  obtain ⟨d', hd', -, hget, -⟩ := hp.woven.exists_accessors hd
  rw [← hread]
  exact hp.woven.gives_getter hp.noHooks hd hflags hstored (Program.resolve_code hd' hget) rfl

theorem gives_put (hp : WovenPair h classes p p') (ha : Agrees h classes s s')
    (hr : LazyAt h classes owner r) (hv : FitsOwner h s owner v) (x : Value) :
    p'.Gives ⟨.special, r.declaring, Names.setter r.field.name, ⟨[r.field.type], none⟩, [v, x]⟩ s'
      (match s.place? v with
      | some o => ⟨.ok none, (s'.ensure v r).write o r.field.name x⟩
      | none => ⟨.error .invalidReference, s'.ensure v r⟩) := by
  obtain ⟨⟨hflags, hstored⟩, -⟩ := hp.access ha hr hv
  obtain ⟨declaring, f⟩ := r
  obtain ⟨d, hd, rfl, -⟩ := hr
  obtain ⟨d', hd', -, -, hset⟩ := hp.woven.exists_accessors hd
  rw [← ha.place?_eq]
  exact hp.woven.gives_setter hp.noHooks hd hflags hstored (size_of_fitsOwner hv)
    (Program.resolve_code hd' hset) rfl

end Access

/-! ## Steps -/

section Step

variable {i : Instruction} {remaining : Nat} {code : Array Instruction}

/-- Both programs execute the same instruction. -/
theorem step_kept (hp : WovenPair h classes p p') (hf : FrameWoven h p p' f { f with code })
    (hc : List.Forall₂ (FrameWoven h p p') callers callers') (ha : Agrees h classes s s')
    (hremaining : f.remaining = remaining + 1) (hi : f.code[f.position]? = some i)
    (hi' : code[f.position]? = some i) (hadmissible : Admissible h p p' i)
    (halike : ({ f with remaining } : Frame).Alike (Agrees h classes) i s s')
    (hkeep : ∀ o, (p.step ⟨f, callers, s⟩).state.stored (.object o) = s.stored (.object o)) :
    ProgressWoven h classes p p' (p.step ⟨f, callers, s⟩)
      (p'.step ⟨{ f with code }, callers', s'⟩) := by
  have hrel : ({ f with remaining } : Frame).StepRel (Agrees h classes) i s s' code remaining _ _ :=
    Frame.execute_rel ha halike
  rw [Program.step_eq p callers s hremaining hi] at hkeep ⊢
  rw [Program.step_eq p' callers' s' (f := { f with code }) hremaining hi']
  revert hrel hkeep
  generalize ({ f with remaining } : Frame).execute i s = x
  generalize ({ f with code, remaining } : Frame).execute i s' = x'
  intro hkeep hrel
  cases hrel with
  | @next g t t' hcode hsteps hagrees =>
    obtain rfl : remaining = g.remaining := hsteps.symm
    exact .running (hf.withCode hcode) hc hagrees
  | @call c g hcode hsteps hinvoke =>
    obtain rfl : remaining = g.remaining := hsteps.symm
    subst hinvoke
    exact hp.enter hadmissible (.cons (hf.withCode hcode) hc) ha hkeep
  | done hagrees => exact .returning hc hagrees _
  | fault hagrees => exact .ended hagrees

/-- An instruction that is kept does the same in states that agree. -/
theorem alike (hp : WovenPair h classes p p') (ha : Agrees h classes s s') {c : ClassDef}
    (hremaining : f.remaining = remaining + 1) (hi : f.code[f.position]? = some i)
    (hadmissible : Admissible h p p' i)
    (hkept : ∀ owner name type, i = .getField owner name type ∨ i = .putField owner name type →
      MethodWeaver.accessorOwner h (.exact h) c owner name type = .ok none)
    (hkeep : ∀ o, (p.step ⟨f, callers, s⟩).state.stored (.object o) = s.stored (.object o))
    (hreceiver : ∀ owner v, f.access? = some (owner, v) → FitsOwner h s owner v) :
    ({ f with remaining } : Frame).Alike (Agrees h classes) i s s' := by
  have hne {owner name : String} {type : FieldType} {C : String} {r : ResolvedField}
      (haccess : i = .getField owner name type ∨ i = .putField owner name type)
      (ht : TypedAccess h owner name type) (hC : h.descendsFrom owner C = true) :
      LazyAt h classes C r → r.field.name ≠ name :=
    hp.ne_of_accessorOwner ht (hkept owner name type haccess) hC
  obtain ⟨code₀, position, stack, locals, _⟩ := f
  obtain rfl := hremaining
  cases i with
  | getField owner name type =>
    rcases stack with _ | ⟨object, stack⟩
    · trivial
    have hfits : FitsOwner h s owner object := hreceiver _ _ (by simp only [Frame.access?, hi])
    show s'.field? object name = s.field? object name
    rcases hfits with rfl | ⟨o, C, rfl, hC, howner⟩
    · rfl
    refine ha.plain o name hadmissible.1 fun C' r hC' hr => ?_
    cases hC.symm.trans hC'
    exact hne (.inl rfl) hadmissible howner hr
  | putField owner name type =>
    rcases stack with _ | ⟨value, _ | ⟨object, stack⟩⟩
    · trivial
    · trivial
    refine ⟨ha.place?_eq object, fun o ho => ?_⟩
    have hfits : FitsOwner h s owner object := hreceiver _ _ (by simp only [Frame.access?, hi])
    obtain ⟨rfl, hsize⟩ := State.of_place?_eq_some ho
    obtain ⟨o', C, heq, hC, howner⟩ := hfits.resolve_left nofun
    cases heq
    refine ha.write_plain hp.ordinary hsize hadmissible.1 (fun C' r hC' hr => ?_) ?_
    · cases hC.symm.trans hC'
      exact hne (.inr rfl) hadmissible howner hr
    · have hkept := hkeep o
      rw [Program.step_eq p callers s rfl hi] at hkept
      simp only [Frame.execute.eq_def, ho] at hkept
      exact hkept
  | new className => exact ⟨ha.size_eq, ha.allocate className⟩
  | _ => trivial

/-- The woven program calls the accessor in place of a read. -/
theorem step_get (hp : WovenPair h classes p p') (hf : FrameWoven h p p' f { f with code })
    (hc : List.Forall₂ (FrameWoven h p p') callers callers') (ha : Agrees h classes s s')
    {owner : String} {r : ResolvedField} (hremaining : f.remaining = remaining + 1)
    (hi : f.code[f.position]? = some (.getField owner r.field.name r.field.type))
    (hi' : code[f.position]? = some (.invoke .special r.declaring (Names.getter r.field.name)
      ⟨[], some r.field.type⟩)) (hr : LazyAt h classes owner r)
    (hreceiver : ∀ owner v, f.access? = some (owner, v) → FitsOwner h s owner v) :
    ∃ m, ProgressWoven h classes p p' (p.step ⟨f, callers, s⟩)
      (p'.after m (p'.step ⟨{ f with code }, callers', s'⟩)) := by
  rw [Program.step_eq p callers s hremaining hi,
    Program.step_eq p' callers' s' (f := { f with code }) hremaining hi']
  obtain ⟨code₀, position, stack, locals, _⟩ := f
  obtain rfl := hremaining
  rcases stack with _ | ⟨object, stack⟩
  · exact ⟨0, .ended ha⟩
  have hfits : FitsOwner h s owner object := hreceiver _ _ (by simp only [Frame.access?, hi])
  obtain ⟨m, hm⟩ := hp.gives_get ha hr hfits
    (⟨code, position + 1, stack, locals, remaining⟩ :: callers')
  refine ⟨m, ?_⟩
  have hcall : (⟨code, position, object :: stack, locals, remaining⟩ : Frame).execute
      (.invoke .special r.declaring (Names.getter r.field.name) ⟨[], some r.field.type⟩) s' =
        .call ⟨.special, r.declaring, Names.getter r.field.name, ⟨[], some r.field.type⟩, [object]⟩
          ⟨code, position + 1, stack, locals, remaining⟩ s' :=
    rfl
  rw [hcall, hm]
  exact .running (hf.withCode rfl) hc (hp.access ha hr hfits).2.1

/-- The woven program calls the accessor in place of a write. -/
theorem step_put (hp : WovenPair h classes p p') (hf : FrameWoven h p p' f { f with code })
    (hc : List.Forall₂ (FrameWoven h p p') callers callers') (ha : Agrees h classes s s')
    {owner : String} {r : ResolvedField} (hremaining : f.remaining = remaining + 1)
    (hi : f.code[f.position]? = some (.putField owner r.field.name r.field.type))
    (hi' : code[f.position]? = some (.invoke .special r.declaring (Names.setter r.field.name)
      ⟨[r.field.type], none⟩)) (hr : LazyAt h classes owner r)
    (hreceiver : ∀ owner v, f.access? = some (owner, v) → FitsOwner h s owner v) :
    ∃ m, ProgressWoven h classes p p' (p.step ⟨f, callers, s⟩)
      (p'.after m (p'.step ⟨{ f with code }, callers', s'⟩)) := by
  rw [Program.step_eq p callers s hremaining hi,
    Program.step_eq p' callers' s' (f := { f with code }) hremaining hi']
  obtain ⟨code₀, position, stack, locals, _⟩ := f
  obtain rfl := hremaining
  rcases stack with _ | ⟨value, _ | ⟨object, stack⟩⟩
  · exact ⟨0, .ended ha⟩
  · exact ⟨0, .ended ha⟩
  have hfits : FitsOwner h s owner object := hreceiver _ _ (by simp only [Frame.access?, hi])
  obtain ⟨m, hm⟩ := hp.gives_put ha hr hfits value
    (⟨code, position + 1, stack, locals, remaining⟩ :: callers')
  refine ⟨m, ?_⟩
  have hcall : (⟨code, position, value :: object :: stack, locals, remaining⟩ : Frame).execute
      (.invoke .special r.declaring (Names.setter r.field.name) ⟨[r.field.type], none⟩) s' =
        .call ⟨.special, r.declaring, Names.setter r.field.name, ⟨[r.field.type], none⟩,
          [object, value]⟩ ⟨code, position + 1, stack, locals, remaining⟩ s' :=
    rfl
  rw [hcall, hm]
  obtain ⟨-, hagrees, -, hwrite⟩ := hp.access ha hr hfits
  simp only [Frame.execute.eq_def]
  rcases hplace : s.place? object with _ | o
  · exact .ended hagrees
  · exact .running (hf.withCode rfl) hc (hwrite o value hplace)

/-- **One step of the plain program** is at least one step of the woven one. -/
theorem step (hp : WovenPair h classes p p') {t t' : Thread}
    (hrel : ProgressWoven h classes p p' (.running t) (.running t'))
    (hkeep : ∀ o, (p.step t).state.stored (.object o) = t.state.stored (.object o))
    (hreceiver : ∀ owner v, t.frame.access? = some (owner, v) → FitsOwner h t.state owner v) :
    ∃ m, ProgressWoven h classes p p' (p.step t) (p'.after m (p'.step t')) := by
  cases hrel with | @running f f' callers callers' s s' hf hc ha =>
  obtain ⟨code, rfl⟩ : ∃ code, f' = { f with code } := ⟨_, hf.same⟩
  by_cases hzero : f.remaining = 0
  · rw [Program.step_stepLimit p callers s hzero,
      Program.step_stepLimit (f := { f with code }) p' callers' s' hzero]
    exact ⟨0, .ended ha⟩
  obtain ⟨remaining, hremaining⟩ := Nat.exists_eq_succ_of_ne_zero hzero
  obtain ⟨c, hcode⟩ := hf.code
  have hrel := rel_getElem? hcode f.position
  rw [Array.getElem?_toList, Array.getElem?_toList] at hrel
  rcases hi : f.code[f.position]? with _ | i <;> rcases hi' : code[f.position]? with _ | i' <;>
    rw [hi, hi'] at hrel <;> cases hrel
  · rw [Program.step_fellOff p callers s hremaining hi,
      Program.step_fellOff (f := { f with code }) p' callers' s' hremaining hi']
    exact ⟨0, .ended ha⟩
  next hredirect =>
  have hadmissible : Admissible h p p' i :=
    hf.admissible i (Array.mem_toList_iff.2 (Array.mem_of_getElem? hi))
  obtain ⟨rfl, hkept⟩ | ⟨owner, name, type, declaring, hx, hi⟩ :=
    MethodWeaver.redirect_eq_ok hredirect
  · exact ⟨0, hp.step_kept hf hc ha hremaining hi hi' hadmissible
      (hp.alike ha hremaining hi hadmissible hkept hkeep hreceiver) hkeep⟩
  · rcases hi with ⟨rfl, rfl⟩ | ⟨rfl, rfl⟩
    · obtain ⟨field, hlazy, rfl, rfl⟩ := hp.lazyAt_of_accessorOwner hadmissible hx
      exact hp.step_get hf hc ha hremaining hi hi' hlazy hreceiver
    · obtain ⟨field, hlazy, rfl, rfl⟩ := hp.lazyAt_of_accessorOwner hadmissible hx
      exact hp.step_put hf hc ha hremaining hi hi' hlazy hreceiver

end Step

/-! ## Runs -/

/-- **A run of the plain program** is followed by the woven one, which makes no fewer steps. -/
theorem run (hp : WovenPair h classes p p') {s₀ : State} {x x' : Progress}
    (hrel : ProgressWoven h classes p p' x x') (horderly : Orderly h p s₀ x) (n : Nat) :
    ∃ m, n ≤ m ∧ ProgressWoven h classes p p' (p.after n x) (p'.after m x') := by
  induction n with
  | zero => exact ⟨0, Nat.le_refl 0, hrel⟩
  | succ n ih =>
    obtain ⟨m, hm, hn⟩ := ih
    have hstored₀ := horderly.stored n
    have hstored₁ := horderly.stored (n + 1)
    have hreceivers := horderly.receivers n
    rw [Program.after_add] at hstored₁ ⊢
    generalize p.after n x = y at hn hstored₀ hstored₁ hreceivers ⊢
    generalize hy' : p'.after m x' = y' at hn
    cases hn with
    | @running f f' callers callers' s s' hf hc ha =>
      obtain ⟨k, hk⟩ := hp.step (.running hf hc ha)
        (fun o => (hstored₁ o).trans (hstored₀ o).symm) fun owner v => hreceivers _ owner v rfl
      refine ⟨m + (k + 1), by omega, ?_⟩
      rw [Program.after_add, hy']
      exact hk
    | ended ha =>
      refine ⟨m + 1, by omega, ?_⟩
      rw [Program.after_add, hy']
      exact .ended ha

end WovenPair

/-! ## Archives -/

/--
An archive that is woven by itself with the default configuration, as far as it matters for its
lazy fields: no method is an entry or has the name of a hook, fields have unique names that are
neither marked nor those of the platform, and the code names no member that weaving adds and has the
types of the fields it accesses.
-/
structure WovenApplication (input : Archive) (w : WovenArchive) (built : ClassIndex.Building) : Prop
    where
  woven : weaveArchive input [] {} = .ok w
  indexed : ClassIndex.build [input] = .ok built
  distinctNames : DistinctNames input.classes
  platform : ∀ c ∈ input.classes, c.name ∉ ({} : Config).platformTypes
  roles : ∀ c ∈ input.classes, ∀ m ∈ c.methods,
    (Oracle.exact built.hierarchy).role {} ⟨c.name, m.name, m.signature⟩ = .ok .plain
  noHooks : NoHookMethods input.classes
  ordinary : OrdinaryFields input.classes
  unique : UniqueFields built.hierarchy input.classes
  admissible : ∀ c ∈ input.classes, ∀ m ∈ c.methods, ∀ code, m.code = some code →
    ∀ i ∈ code, Admissible built.hierarchy (.ofClasses input.classes) w.program i

namespace WovenApplication

variable {input : Archive} {w : WovenArchive} {built : ClassIndex.Building}

theorem get?_ofClasses (happ : WovenApplication input w built) (n : String) :
    (Program.ofClasses input.classes).classes.get? n = built.index.get? n :=
  Weaving.get?_ofClasses happ.indexed happ.distinctNames n

theorem mem_of_index (happ : WovenApplication input w built) {n : String} {c : ClassDef}
    (hc : built.index.get? n = some c) : c ∈ input.classes := by
  rw [← happ.get?_ofClasses] at hc
  exact (Program.mem_of_get?_ofClasses hc).1

theorem noEntries (happ : WovenApplication input w built) : built.hierarchy.NoEntries :=
  Hierarchy.noEntries_of_role fun c hc => happ.roles c (happ.mem_of_index hc)

theorem wovenPair (happ : WovenApplication input w built)
    (hconcrete : ∀ c ∈ input.classes, built.hierarchy.isStorage c.name = true →
      c.isInterface = true → built.hierarchy.lazyFields c = []) :
    WovenPair built.hierarchy input.classes (.ofClasses input.classes) w.program := by
  obtain ⟨built', hb', hclasses⟩ := weaveArchive_spec happ.woven
  obtain rfl : built' = built := Except.ok.inj (hb'.symm.trans happ.indexed)
  refine ⟨wovenProgram_of_weaveArchive happ.woven happ.indexed happ.distinctNames happ.platform,
    rfl, happ.get?_ofClasses, fun n c => happ.mem_of_index, ?_, happ.noEntries, happ.noHooks,
    happ.ordinary, happ.unique, hconcrete, happ.admissible⟩
  exact (Program.size_ofClasses (fun {_ _} => ClassWoven.name_eq)
    (List.forall₂_map_right_iff.2 hclasses)).symm

/-- Weaving adds methods with marked names and constructors only. -/
theorem not_adds (happ : WovenApplication input w built) {name : String}
    (hmarked : Names.isSynthetic name = false) (hname : name ≠ constructorName)
    (signature : Signature) : ¬ Adds (.ofClasses input.classes) w.program name signature := by
  rintro ⟨n, c, c', hc, hc', hnone, hadded⟩
  have hp := wovenProgram_of_weaveArchive happ.woven happ.indexed happ.distinctNames happ.platform
  obtain ⟨hmem, rfl⟩ := Program.mem_of_get?_ofClasses hc
  obtain ⟨d', hd', hwoven⟩ := hp.loaded c hmem
  cases hc'.symm.trans hd'
  obtain ⟨m, hm⟩ := Option.ne_none_iff_exists'.1 hadded
  obtain ⟨methods, hmethods, hgrows⟩ := hwoven.grows
  rcases hgrows.adds hm with hm | hm
  · obtain ⟨hmethod, rfl, rfl⟩ := ClassDef.mem_of_method? hm
    obtain ⟨m₀, hm₀, hrel⟩ := exists_of_forall₂_right hmethods hmethod
    have hnamed := List.find?_eq_none.1 hnone m₀ hm₀
    rw [hrel.name, hrel.signature happ.noEntries] at hnamed
    exact hnamed (by simp [MethodDef.isNamed])
  · rcases isSynthetic_of_mem_memberNames hm with hsynthetic | rfl
    · rw [hmarked] at hsynthetic
      cases hsynthetic
    · exact hname rfl

/--
**Lazy loading is transparent.** From states that agree, a call in whose plain run no object becomes
persisted or stops being so, and every field access is to null or to an object of the named class,
ends in the plain program exactly if it ends in the woven one, with the same result and in states
that agree.
-/
theorem call_transparent (happ : WovenApplication input w built)
    (hconcrete : ∀ c ∈ input.classes, built.hierarchy.isStorage c.name = true →
      c.isInterface = true → built.hierarchy.lazyFields c = []) {call : Call}
    (hcall : ¬ Adds (.ofClasses input.classes) w.program call.name call.signature) {s s' : State}
    (ha : Agrees built.hierarchy input.classes s s')
    (horderly : Orderly built.hierarchy (.ofClasses input.classes) s
      ((Program.ofClasses input.classes).enter call [] s)) :
    (∀ fuel out, (Program.ofClasses input.classes).call fuel call s = some out →
      ∃ fuel' out', w.program.call fuel' call s' = some out' ∧ out'.result = out.result ∧
        Agrees built.hierarchy input.classes out.state out'.state) ∧
    (∀ fuel' out', w.program.call fuel' call s' = some out' →
      ∃ fuel out, (Program.ofClasses input.classes).call fuel call s = some out ∧
        out'.result = out.result ∧
        Agrees built.hierarchy input.classes out.state out'.state) := by
  have hp := happ.wovenPair hconcrete
  have hrun := hp.run (hp.enter hcall .nil ha (horderly.stored 0)) horderly
  refine ⟨fun fuel out hout => ?_, fun fuel' out' hout' => ?_⟩
  · rw [Program.call, Program.run_eq_some_iff] at hout
    obtain ⟨m, -, hrel⟩ := hrun fuel
    rw [hout] at hrel
    generalize hx' : w.program.after m (w.program.enter call [] s') = x' at hrel
    cases hrel with | @ended r t t' hagrees =>
    exact ⟨m, ⟨r, t'⟩, Program.run_eq_some_iff.2 hx', rfl, hagrees⟩
  -- the woven program has made at least as many steps, so it has not gone on
  · rw [Program.call, Program.run_eq_some_iff] at hout'
    obtain ⟨m, hm, hrel⟩ := hrun fuel'
    obtain ⟨k, rfl⟩ := Nat.le.dest hm
    rw [Program.after_add, hout', Program.after_ended] at hrel
    generalize hx : (Program.ofClasses input.classes).after fuel'
      ((Program.ofClasses input.classes).enter call [] s) = x at hrel
    cases hrel with | @ended r t t' hagrees =>
    exact ⟨fuel', ⟨r, t⟩, Program.run_eq_some_iff.2 hx, rfl, hagrees⟩

end WovenApplication

/-! ### Methods that read a field -/

section Reading

variable {owner name : String} {type : FieldType} {kind : ValueKind} {call : Call} {this : Value}

/-- The code of a method that returns a field of its receiver. -/
def readCode (owner name : String) (type : FieldType) (kind : ValueKind) : Code :=
  [.loadThis, .getField owner name type, .return (some kind)]

theorem admissible_readCode (ht : TypedAccess h owner name type) (kind : ValueKind) :
    ∀ i ∈ readCode owner name type kind, Admissible h p p' i := by
  intro i hi
  simp only [readCode, List.mem_cons, List.not_mem_nil, or_false] at hi
  rcases hi with rfl | rfl | rfl
  · trivial
  · exact ht
  · trivial

/-- A method that returns a field of its receiver: it comes to its end, and its only access is to
the receiver. -/
theorem orderly_of_read (hcallee : p.callee call s = .ok (.code (readCode owner name type kind)))
    (hargs : call.args = [this]) (hthis : FitsOwner h s owner this) :
    p.call 3 call s = some ⟨.ok (some (s.read this name type)), s⟩ ∧
      Orderly h p s (p.enter call [] s) := by
  obtain ⟨locals, hlay, hlocal⟩ := exists_layOut_one this
  let frame (n : Nat) (stack : List Value) (remaining : Nat) : Frame :=
    ⟨(readCode owner name type kind).toArray, n, stack, locals, remaining⟩
  have h₀ : p.enter call [] s = .running ⟨frame 0 [] 100000, [], s⟩ := by
    simp only [Program.enter, hcallee, Frame.start, hargs, hlay]
    rfl
  have h₁ : p.step ⟨frame 0 [] 100000, [], s⟩ = .running ⟨frame 1 [this] 99999, [], s⟩ := by
    have hi : (frame 0 [] 100000).code[0]? = some (.load .reference 0) := rfl
    rw [Program.step_eq p [] s (f := frame 0 [] 100000) rfl hi]
    simp only [Frame.execute.eq_def, frame, hlocal]
    rfl
  have h₂ : p.step ⟨frame 1 [this] 99999, [], s⟩ =
      .running ⟨frame 2 [s.read this name type] 99998, [], s⟩ := rfl
  have h₃ : p.step ⟨frame 2 [s.read this name type] 99998, [], s⟩ =
      .ended ⟨.ok (some (s.read this name type)), s⟩ := rfl
  rw [Program.call, h₀]
  refine ⟨by simp only [Program.run, h₁, h₂, h₃], ?_, ?_⟩
  · rintro (_ | _ | _ | n) o
    · rfl
    · simp only [Program.after, h₁]
      rfl
    · simp only [Program.after, h₁, h₂]
      rfl
    · simp only [Program.after, h₁, h₂, h₃, Program.after_ended]
      rfl
  · rintro (_ | _ | _ | n) t owner' v ht haccess
    · cases ht
      cases haccess
    · simp only [Program.after, h₁] at ht
      cases ht
      cases haccess
      exact hthis
    · simp only [Program.after, h₁, h₂] at ht
      cases ht
      cases haccess
    · simp only [Program.after, h₁, h₂, h₃, Program.after_ended] at ht
      cases ht

end Reading

/-! ### A chain of persisted objects -/

namespace Chain

/-- The type of the links. -/
def link : FieldType := .reference "a.Node"

/-- A class with a lazy field and a method that reads it. -/
def node : ClassDef where
  name := "a.Node"
  superclass := some "runtime.Storage"
  fields := [⟨"next", link, .none⟩]
  methods := [{
    name := "tail"
    signature := ⟨[], some link⟩
    code := some (readCode "a.Node" "next" link .reference) }]

/-- The lazy field of the class. -/
def next : ResolvedField := ⟨"a.Node", "next", link, .none⟩

/-- The archive of the class. -/
def archive : Archive where
  entries := [⟨"a/Node.class", node.toBytes⟩]
  distinct := by decide

/-- The index of the archive. -/
def index : ClassIndex.Building where
  index := ⟨[⟨node, node.toBytes⟩]⟩

theorem woven : archive.classes = [node] ∧ ClassIndex.build [archive] = .ok index ∧
    wovenClasses archive = .ok [wovenResult index.hierarchy node] :=
  woven_of_stored (by decide) rfl (by decide) (by decide) (by decide +kernel)

theorem exists_wovenApplication : ∃ w, WovenApplication archive w index ∧
    w.program = Program.ofClasses [wovenResult index.hierarchy node] := by
  obtain ⟨hclasses, hindex, hwoven⟩ := woven
  obtain ⟨w, hw, hprogram⟩ := exists_weaveArchive hwoven
  refine ⟨w, ⟨hw, hindex, ?_, ?_, ?_, ?_, ?_, ?_, ?_⟩, hprogram⟩ <;> rw [hclasses]
  · unfold DistinctNames
    decide
  · decide
  · decide +kernel
  · unfold NoHookMethods
    decide
  · unfold OrdinaryFields
    decide
  · unfold UniqueFields
    decide +kernel
  · intro c hc m hm code hcode
    obtain rfl := List.mem_singleton.1 hc
    obtain rfl := List.mem_singleton.1 hm
    cases hcode
    refine admissible_readCode ⟨by decide, fun _ => .inr ⟨next, ?_, rfl⟩⟩ _
    decide +kernel

theorem lazyAt_iff {C : String} {r : ResolvedField} :
    LazyAt index.hierarchy [node] C r ↔
      r = next ∧ index.hierarchy.descendsFrom "a.Node" C = true := by
  have hfields : index.hierarchy.lazyFields node = [next.field] := by decide +kernel
  constructor
  · rintro ⟨d, ⟨hd, -, -, hf⟩, hdeclaring, hC⟩
    obtain rfl := List.mem_singleton.1 hd
    rw [hfields, List.mem_singleton] at hf
    obtain ⟨declaring, f⟩ := r
    obtain rfl : f = next.field := hf
    obtain rfl : declaring = node.name := hdeclaring
    exact ⟨rfl, hC⟩
  · rintro ⟨rfl, hC⟩
    refine ⟨node, ⟨List.mem_singleton_self _, by decide +kernel, rfl, ?_⟩, rfl, hC⟩
    rw [hfields]
    exact List.mem_singleton_self _

/-- The fields of an object with a mark that says whether it is persisted. -/
def marked (v : Value) : Std.TreeMap String Value := Std.TreeMap.empty.insert Names.inStorage v

/-- The fields of a persisted object that has its link, to itself. -/
def loaded : Std.TreeMap String Value := (marked (.int 1)).insert "next" (.object 0)

/-- A state with one object, whose persisted link is to itself. -/
def linked (fields : Std.TreeMap String Value) : State where
  heap := #[⟨"a.Node", fields⟩]
  persisted := Table.set {} ("a.Node", "next") (.object 0)

/-- The woven program has not loaded the link yet. -/
theorem agrees_unloaded :
    Agrees index.hierarchy [node] (linked loaded) (linked (marked (.int 1))) := by
  refine ⟨?_, rfl, rfl, rfl, rfl, ?_, ?_⟩
  · rintro (_ | id) <;> rfl
  · rintro (_ | id) n - hlazy
    · have hn : "next" ≠ n :=
        hlazy "a.Node" next rfl (lazyAt_iff.2 ⟨rfl, Hierarchy.descendsFrom_self _⟩)
      show (marked (.int 1))[n]? = ((marked (.int 1)).insert "next" (.object 0))[n]?
      rw [Std.TreeMap.getElem?_insert, if_neg (by simpa using hn)]
    · rfl
  · rintro (_ | id) C r hC hr
    · obtain ⟨rfl, -⟩ := lazyAt_iff.1 hr
      exact ⟨⟨⟨1, rfl⟩, 0, rfl⟩, rfl⟩
    · cases hC

/-- The call of the method on the object. -/
def tail : Call := ⟨.virtual, "a.Node", "tail", ⟨[], some link⟩, [.object 0]⟩

theorem callee_tail (fields : Std.TreeMap String Value) :
    (Program.ofClasses archive.classes).callee tail (linked fields) =
      .ok (.code (readCode "a.Node" "next" link .reference)) := by
  rw [woven.1]
  rfl

/-- The woven method loads the link and returns what the plain one returns. -/
theorem tail_transparent : ∃ w, WovenApplication archive w index ∧
    (Program.ofClasses archive.classes).call 3 tail (linked loaded) =
      some ⟨.ok (some (.object 0)), linked loaded⟩ ∧
    ∃ fuel out, w.program.call fuel tail (linked (marked (.int 1))) = some out ∧
      out.result = .ok (some (.object 0)) ∧
        Agrees index.hierarchy archive.classes (linked loaded) out.state := by
  have hclasses := woven.1
  obtain ⟨w, happ, -⟩ := exists_wovenApplication
  obtain ⟨hcall, horderly⟩ := orderly_of_read (h := index.hierarchy) (callee_tail _) rfl
    (.inr ⟨0, "a.Node", rfl, rfl, Hierarchy.descendsFrom_self _⟩)
  refine ⟨w, happ, hcall, ?_⟩
  have hadds : ¬ Adds (.ofClasses archive.classes) w.program tail.name tail.signature :=
    happ.not_adds (by decide) (by decide) _
  refine (happ.call_transparent ?_ hadds ?_ horderly).1 3 _ hcall
  · rw [hclasses]
    decide +kernel
  · rw [hclasses]
    exact agrees_unloaded

end Chain

namespace Library

theorem exists_wovenApplication : ∃ w, WovenApplication archive w index ∧
    w.program = Program.ofClasses [document, wovenResult index.hierarchy page] := by
  obtain ⟨hclasses, hindex, hwoven⟩ := woven
  obtain ⟨w, hw, hprogram⟩ := exists_weaveArchive hwoven
  refine ⟨w, ⟨hw, hindex, ?_, ?_, ?_, ?_, ?_, ?_, ?_⟩, hprogram⟩ <;> rw [hclasses]
  · unfold DistinctNames
    decide
  · decide
  · decide +kernel
  · unfold NoHookMethods
    decide
  · unfold OrdinaryFields
    decide
  · unfold UniqueFields
    decide +kernel
  · intro c hc m hm code hcode
    rcases List.mem_pair.1 hc with rfl | rfl
    · cases hm
    obtain rfl := List.mem_singleton.1 hm
    cases hcode
    refine admissible_readCode ⟨by decide, fun _ => .inr
      ⟨⟨"lib.Document", "text", .reference "lang.String", .none⟩, ?_, rfl⟩⟩ _
    decide +kernel

/-- A page that is not persisted. -/
def unsaved : State where
  heap := #[⟨"lib.Page", {}⟩]

/-- The call of the method that reads the text. -/
def read : Call :=
  ⟨.virtual, "lib.Page", "read", ⟨[], some (.reference "lang.String")⟩, [.object 0]⟩

theorem callee_read : (Program.ofClasses archive.classes).callee read unsaved =
    .ok (.code (readCode "lib.Page" "text" (.reference "lang.String") .reference)) := by
  rw [woven.1]
  decide +kernel

end Library

/-- An orderly call with a plain result, and a woven one from the very same state. -/
structure Departs (input : Archive) (w : WovenArchive) (built : ClassIndex.Building) (call : Call)
    (s : State) (plain woven : Except Fault (Option Value)) : Prop where
  application : WovenApplication input w built
  notAdded : ¬ Adds (.ofClasses input.classes) w.program call.name call.signature
  orderly : Orderly built.hierarchy (.ofClasses input.classes) s
    ((Program.ofClasses input.classes).enter call [] s)
  plain : ((Program.ofClasses input.classes).call 3 call s).map (·.result) = some plain
  woven : (w.program.call 100 call s).map (·.result) = some woven

theorem Departs.of_read {input : Archive} {w : WovenArchive} {built : ClassIndex.Building}
    {call : Call} {s : State} {owner name C : String} {type : FieldType} {kind : ValueKind}
    {o : Nat} {woven : Except Fault (Option Value)} (happ : WovenApplication input w built)
    (hmarked : Names.isSynthetic call.name = false) (hname : call.name ≠ constructorName)
    (hcallee : (Program.ofClasses input.classes).callee call s =
      .ok (.code (readCode owner name type kind))) (hargs : call.args = [.object o])
    (hC : s.className? o = some C) (howner : built.hierarchy.descendsFrom owner C = true)
    (hwoven : (w.program.call 100 call s).map (·.result) = some woven) :
    Departs input w built call s (.ok (some (s.read (.object o) name type))) woven := by
  obtain ⟨hcall, horderly⟩ := orderly_of_read hcallee hargs (.inr ⟨o, C, rfl, hC, howner⟩)
  exact ⟨happ, happ.not_adds hmarked hname _, horderly, by rw [hcall]; rfl, hwoven⟩

/-- A lazy field of an interface has no accessors, a mark other than one counts as persisted, and
one that is no number stops the accessors. -/
theorem call_transparent_exceptions :
    (∃ w, Departs Library.archive w Library.index Library.read Library.unsaved (.ok (some .null))
      (.error (.noSuchMethod "runtime.Storage.§get_text"))) ∧
    (∃ w, Departs Chain.archive w Chain.index Chain.tail (Chain.linked (Chain.marked (.int 2)))
      (.ok (some .null)) (.ok (some (.object 0)))) ∧
    ∃ w, Departs Chain.archive w Chain.index Chain.tail (Chain.linked (Chain.marked (.str "yes")))
      (.ok (some .null)) (.error (.typeMismatch "int")) := by
  obtain ⟨w₁, happ₁, hprogram₁⟩ := Library.exists_wovenApplication
  obtain ⟨w₂, happ₂, hprogram₂⟩ := Chain.exists_wovenApplication
  have hself (h : Hierarchy) (C : String) : h.descendsFrom C C = true :=
    Hierarchy.descendsFrom_self C
  refine ⟨⟨w₁, .of_read happ₁ (by decide) (by decide) Library.callee_read rfl rfl (hself _ _) ?_⟩,
    ⟨w₂, .of_read happ₂ (by decide) (by decide) (Chain.callee_tail _) rfl rfl (hself _ _) ?_⟩,
    w₂, .of_read happ₂ (by decide) (by decide) (Chain.callee_tail _) rfl rfl (hself _ _) ?_⟩
  · rw [hprogram₁]
    decide +kernel
  · rw [hprogram₂]
    decide +kernel
  · rw [hprogram₂]
    decide +kernel

end StorageWeave
