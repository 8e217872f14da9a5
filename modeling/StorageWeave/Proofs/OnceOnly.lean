import StorageWeave.Proofs.Branches
import StorageWeave.Proofs.ControlFlow
import StorageWeave.Proofs.Loops

/-!
# Storage classes are woven once only

A woven storage class has the members that weaving adds, so it cannot be given them again, and a
second pass over its archive makes no archive (`weaveArchive_twice_fails`). The pass need not end
with an error. Its look-ups have an end where no class is its own ancestor. A search for a
superclass call has one too, unless the constructor was plain in the first pass and is taken for an
entry in the second. This happens, for roles are looked up by the signature: an entry before it in
the class may have been woven to the signature of the plain one (`Hierarchy.Outranks`).

`Turnstile` is a class of this kind, whose second pass has no end.
-/

namespace StorageWeave.Weaving

open Bytecode Machine
open Injection (Problem spreads_forward spreads_reread)

/-! ## The method that a class fails for -/

theorem exists_of_mapM_eq_error {ε α β : Type} {f : α → Except ε β} {as : List α} {e : ε}
    (h : as.mapM f = .error e) : ∃ a ∈ as, f a = .error e := by
  induction as with
  | nil => cases h
  | cons a as ih =>
    rw [List.mapM_cons] at h
    obtain h | ⟨b, -, h⟩ := bind_eq_error.1 h
    · exact ⟨a, List.mem_cons_self, h⟩
    obtain h | ⟨bs, -, h⟩ := bind_eq_error.1 h
    · obtain ⟨a', ha', h⟩ := ih h
      exact ⟨a', List.mem_cons_of_mem _ ha', h⟩
    · cases h

theorem ClassWeaver.complete_failsOfMembers (h : Hierarchy) (c : ClassDef)
    (methods : List WovenMethod) : FailsOfMembers (complete h c methods) :=
  .ite (.bind (augment_failsOfMembers h c _) fun _ => .ok _) (.ok _)

/-- A class fails for its members or for one of its methods. -/
theorem ClassWeaver.exists_method_of_error {h : Hierarchy} {c : ClassDef} {e : WeaveError}
    (he : weave h (.exact h) c = .error e) :
    e.isOfMembers = true ∨ ∃ m ∈ c.methods, MethodWeaver.weave h (.exact h) c m = .error e := by
  rw [weave_eq_complete] at he
  obtain he | ⟨methods, -, he⟩ := bind_eq_error.1 he
  · exact .inr (exists_of_mapM_eq_error he)
  · exact .inl (complete_failsOfMembers h c methods e he)

/-- A class that fails where a target is moved, or where a search has no end, does so in the passes
over one of its methods. -/
theorem ClassWeaver.exists_refuses {h : Hierarchy} {c : ClassDef} {e : WeaveError}
    {className method : String} (he : weave h (.exact h) c = .error e)
    (hcontrol : e = .endlessSearch className method ∨ e = .targetOverflow className method) :
    ∃ m ∈ c.methods, ∃ role code,
      (Oracle.exact h).role h.config ⟨c.name, m.name, m.signature⟩ = .ok role ∧
      m.code = some code ∧ MethodWeaver.Refuses h c m role code e := by
  obtain hother | ⟨m, hm, he⟩ := exists_method_of_error he
  · rcases hcontrol with rfl | rfl <;> cases hother
  obtain hother | ⟨role, code, hrole, hcode, ⟨_, hother, -⟩ | hpasses⟩ :=
    MethodWeaver.weave_eq_error he
  · rcases hcontrol with rfl | rfl <;> cases hother
  · rcases hcontrol with rfl | rfl <;> cases hother
  · exact ⟨m, hm, role, code, hrole, hcode, MethodWeaver.refuses_of_passes hpasses⟩

/-! ## Methods of a stored class -/

/-- What of a method weaving and storing keep, and its signature. -/
structure Keeps (h : Hierarchy) (m m' : MethodDef) (role : Role) : Prop where
  name : m'.name = m.name
  signature : m'.signature = role.signature h.config m.signature
  access : m'.access = m.access
  annotations : m'.annotations = m.annotations

theorem RereadMethod.keeps {h : Hierarchy} {c : ClassDef} {m m' : MethodDef}
    (hm : RereadMethod h c m m') :
    ∃ role, (Oracle.exact h).role h.config ⟨c.name, m.name, m.signature⟩ = .ok role ∧
      Keeps h m m' role := by
  obtain ⟨w, hw, hread⟩ := hm
  obtain ⟨role, code, hrole, -, hmethod, -⟩ := MethodWeaver.weave_eq_ok hw
  obtain ⟨code', rfl, -⟩ := reread?_method hread
  rw [hmethod]
  exact ⟨role, hrole, rfl, rfl, rfl, rfl⟩

theorem Bare.reread {m m' : MethodDef} (hm : Bare m) (hread : m.reread? = some m') : Bare m' := by
  obtain ⟨code', rfl, hcode'⟩ := reread?_method hread
  obtain ⟨code, hcode, hvalid⟩ := hm.code
  rw [hcode] at hcode'
  cases hcode' with
  | some hcode' => exact ⟨hm.annotations, _, rfl, (validate_reread hcode').trans hvalid⟩

theorem exists_append_of_forall₂ {α β : Type} {R : α → β → Prop} {as : List α} {bs bs' : List β}
    (h : List.Forall₂ R as (bs ++ bs')) :
    ∃ l l', as = l ++ l' ∧ List.Forall₂ R l bs ∧ List.Forall₂ R l' bs' :=
  ⟨_, _, (List.take_append_drop bs.length as).symm, List.forall₂_take_append _ _ _ h,
    List.forall₂_drop_append _ _ _ h⟩

/-- **The methods of a stored class**: those of the class one by one, and bare ones of other names
or signatures. -/
theorem Reread.methods_eq {h : Hierarchy} {c c' : ClassDef} (hc : Reread h c c') :
    ∃ ms added, c'.methods = ms ++ added ∧ List.Forall₂ (RereadMethod h c) c.methods ms ∧
      ∀ m ∈ added, Bare m ∧ m.key ∉ ms.map MethodDef.key := by
  have hkey {m m' : MethodDef} (hm : m.reread? = some m') : m'.key = m.key := by
    obtain ⟨code, rfl, -⟩ := reread?_method hm
    rfl
  obtain ⟨wc, hw, hread⟩ := hc
  obtain ⟨ws, hws, hextends⟩ := ClassWeaver.exists_extends hw
  obtain ⟨methods, rfl, hmethods⟩ := reread?_class hread
  obtain ⟨given, hgiven, hbare⟩ := hextends.methods
  rw [hgiven] at hmethods
  obtain ⟨ms, added, rfl, hms, hadded⟩ := exists_append_of_forall₂ hmethods.flip
  refine ⟨ms, added, rfl, forall₂_comp hws (List.forall₂_map_left_iff.1 hms.flip),
    fun m' hm' => ?_⟩
  obtain ⟨m, hm, hread⟩ := exists_of_forall₂_right hadded.flip hm'
  have hkeys : ms.map MethodDef.key = (ws.map (·.method)).map MethodDef.key := by
    rw [← List.forall₂_eq_eq_eq, List.forall₂_map_left_iff, List.forall₂_map_right_iff]
    exact hms.imp fun _ _ hm => hkey hm
  rw [hkeys, hkey hread]
  exact ⟨(hbare m hm).1.reread hread, (hbare m hm).2⟩

/-! ## Constructors that are taken for entries -/

/--
A plain constructor has the signature that an entry before it is woven to. The woven class has both
with one signature, and the annotations of the first are those that are found.
-/
structure Hierarchy.Outranks (h : Hierarchy) (c : ClassDef) (entry plain : MethodDef) : Prop where
  before : [entry, plain].Sublist c.methods
  entry_name : entry.name = constructorName
  plain_name : plain.name = constructorName
  signature : plain.signature = h.config.widen entry.signature
  isEntry : h.EntryAt entry.name entry.signature c.name
  isPlain : (Oracle.exact h).role h.config ⟨c.name, plain.name, plain.signature⟩ = .ok .plain

theorem Role.eq_plain {role : Role} (h : role.isEntry = false) : role = .plain := by
  cases role with
  | plain => rfl
  | entry | payableEntry => cases h

theorem RereadMethod.declaredRole_eq {h : Hierarchy} {c : ClassDef} {m m' : MethodDef}
    (hm : RereadMethod h c m m') (config : Config) :
    config.declaredRole m' = config.declaredRole m := by
  obtain ⟨role, -, hkeeps⟩ := hm.keeps
  have hannotation (kind : String) : m'.annotation? kind = m.annotation? kind := by
    rw [MethodDef.annotation?, hkeeps.annotations, MethodDef.annotation?]
  rw [Config.declaredRole, hannotation, hannotation, Config.declaredRole]

/-- A plain method keeps its signature. -/
theorem Keeps.signature_of_plain {h : Hierarchy} {m m' : MethodDef} (hm : Keeps h m m' .plain) :
    m'.signature = m.signature :=
  hm.signature

/-- The first constructor of a signature in a woven class, if it declares to be an entry, has been
one: otherwise the one that declared it to be plain would come before it. -/
theorem isEntry_of_first {h : Hierarchy} {c : ClassDef} {m m' : MethodDef}
    {pre post pre' : List MethodDef} (hindexed : h.index.get? c.name = some c)
    (hmethods : c.methods = pre ++ m :: post) (hpre : List.Forall₂ (RereadMethod h c) pre pre')
    (hm : RereadMethod h c m m') (hname : m'.name = constructorName)
    (hfirst : ∀ n' ∈ pre', ¬ (n'.name = m'.name ∧ n'.signature = m'.signature))
    (hdeclared : (h.config.declaredRole m').isEntry = true) :
    h.EntryAt m.name m.signature c.name := by
  obtain ⟨role, hrole, hkeeps⟩ := hm.keeps
  refine ⟨role, hrole, ?_⟩
  by_contra hplain
  obtain rfl := Role.eq_plain (by simpa using hplain)
  have hself : m.isNamed m.name m.signature = true := by simp [MethodDef.isNamed]
  rcases hfind : pre.find? (·.isNamed m.name m.signature) with _ | n
  · have hfound : c.method? m.name m.signature = some m := by
      simp [ClassDef.method?, hmethods, List.find?_append, hfind, hself]
    have hdeclares := role_constructor hindexed hfound (hkeeps.name.symm.trans hname)
    rw [hrole, ← hm.declaredRole_eq] at hdeclares
    rw [← Except.ok.inj hdeclares] at hdeclared
    cases hdeclared
  · obtain ⟨n', hn', (hreread : RereadMethod h c n n')⟩ :=
      exists_of_forall₂_right hpre.flip (List.mem_of_find?_eq_some hfind)
    obtain ⟨hnname, hnsignature⟩ : n.name = m.name ∧ n.signature = m.signature := by
      simpa [MethodDef.isNamed] using List.find?_some hfind
    obtain ⟨role, hrole', hkeeps'⟩ := hreread.keeps
    rw [hnname, hnsignature, hrole] at hrole'
    cases hrole'
    refine hfirst n' hn' ⟨?_, ?_⟩
    · rw [hkeeps'.name, hnname, hkeeps.name]
    · rw [hkeeps'.signature_of_plain, hnsignature, hkeeps.signature_of_plain]

/-- **The constructors that a second pass takes for entries** are the entries of the first, and the
plain ones that an entry outranks. -/
theorem Reread.isEntry_or_outranks {h h' : Hierarchy} {c c' : ClassDef} {m' : MethodDef}
    (hc : Reread h c c') (hconfig : h'.config = h.config) (hindexed : h.index.get? c.name = some c)
    (hindexed' : h'.index.get? c'.name = some c') (hm' : m' ∈ c'.methods)
    (hname : m'.name = constructorName) (hentry : h'.EntryAt m'.name m'.signature c'.name) :
    ∃ m ∈ c.methods, RereadMethod h c m m' ∧
      (h.EntryAt m.name m.signature c.name ∨ ∃ entry, h.Outranks c entry m) := by
  obtain ⟨ms, added, hmethods, hms, hadded⟩ := hc.methods_eq
  obtain ⟨role', hrole', hentry⟩ := hentry
  have hnamed : m'.isNamed m'.name m'.signature = true := by simp [MethodDef.isNamed]
  obtain ⟨first', hfirst'⟩ : ∃ first', c'.method? m'.name m'.signature = some first' :=
    Option.isSome_iff_exists.1 (List.find?_isSome.2 ⟨m', hm', hnamed⟩)
  -- the first constructor of the signature declares to be an entry, so it is no added one
  have hdeclared : (h.config.declaredRole first').isEntry = true := by
    have hdeclares := role_constructor hindexed' hfirst' hname
    cases hdeclares.symm.trans hrole'
    rwa [hconfig] at hentry
  have hms' : ms.find? (·.isNamed m'.name m'.signature) = some first' := by
    rw [ClassDef.method?, hmethods, List.find?_append] at hfirst'
    rcases hfind : ms.find? (·.isNamed m'.name m'.signature) with _ | n
    · rw [hfind, Option.none_or] at hfirst'
      have hbare := (hadded first' (List.mem_of_find?_eq_some hfirst')).1
      rw [h.config.declaredRole_eq_plain hbare.annotations] at hdeclared
      cases hdeclared
    · rw [hfind, Option.some_or] at hfirst'
      exact hfind.trans hfirst'
  obtain ⟨hsame, pre', post', rfl, hpre'⟩ := List.find?_eq_some_iff_append.1 hms'
  obtain ⟨hfirstname, hfirstsignature⟩ :
      first'.name = m'.name ∧ first'.signature = m'.signature := by
    simpa [MethodDef.isNamed] using hsame
  obtain ⟨pre, rest, hrest, hpre, hfrom⟩ := exists_append_of_forall₂ hms
  obtain ⟨first, post, hfirst, hpost, rfl⟩ := List.forall₂_cons_right_iff.1 hfrom
  have hisEntry : h.EntryAt first.name first.signature c.name := by
    refine isEntry_of_first hindexed hrest hpre hfirst (hfirstname.trans hname) ?_ hdeclared
    rintro n' hn' ⟨hname', hsignature'⟩
    simpa [MethodDef.isNamed, hname', hsignature', hfirstname, hfirstsignature] using hpre' n' hn'
  -- the method itself is the first one or comes behind it
  have hmem : m' = first' ∨ m' ∈ post' := by
    rw [hmethods, List.mem_append, List.mem_append, List.mem_cons] at hm'
    rcases hm' with (hm' | hm') | hm'
    · simpa [hnamed] using hpre' m' hm'
    · exact hm'
    · refine absurd ?_ (hadded m' hm').2
      have hkey : m'.key = first'.key := by rw [MethodDef.key, ← hfirstname, ← hfirstsignature]; rfl
      rw [hkey]
      exact List.mem_map_of_mem (by simp)
  obtain rfl | hmem := hmem
  · exact ⟨first, by simp [hrest], hfirst, .inl hisEntry⟩
  obtain ⟨m, hm, hreread⟩ := exists_of_forall₂_right hpost hmem
  obtain ⟨role, hrole, hkeeps⟩ := RereadMethod.keeps hreread
  refine ⟨m, by simp [hrest, hm], hreread, ?_⟩
  cases hisPlain : role.isEntry with
  | true => exact .inl ⟨role, hrole, hisPlain⟩
  | false =>
    obtain rfl := Role.eq_plain hisPlain
    obtain ⟨entryRole, hentryRole, hentry'⟩ := hisEntry
    obtain ⟨_, hrole₁, hkeeps₁⟩ := hfirst.keeps
    cases hentryRole.symm.trans hrole₁
    refine .inr ⟨first, ?_, ?_, ?_, ?_, ⟨entryRole, hentryRole, hentry'⟩, hrole⟩
    · rw [hrest]
      exact ((List.singleton_sublist.2 hm).cons_cons first).trans (List.sublist_append_right _ _)
    · rw [← hkeeps₁.name, hfirstname, hname]
    · rw [← hkeeps.name, hname]
    · rw [← hkeeps.signature_of_plain, ← hfirstsignature, hkeeps₁.signature, Role.signature,
        if_pos hentry']

/-! ## The second search -/

/-- A loop in the code of a constructor lets the stack grow, and neither it nor the way there stores
the first slot behind the parameters. -/
def HasGrowingLoop (c : ClassDef) (m : MethodDef) : Prop :=
  ∃ code s, m.code = some code ∧ c.superclass = some s ∧
    (⟨c.name, m.name, code.toArray, s, m.firstFreeSlot.toUInt16⟩ : Problem).GrowsFrom ⟨0, 0⟩

/-- The code of a method that was woven and stored. -/
theorem RereadMethod.exists_code {h : Hierarchy} {c : ClassDef} {m m' : MethodDef} {code' : Code}
    (hm : RereadMethod h c m m') (hcode' : m'.code = some code') :
    ∃ w role code woven prologue, MethodWeaver.weave h (.exact h) c m = .ok w ∧
      (Oracle.exact h).role h.config ⟨c.name, m.name, m.signature⟩ = .ok role ∧
      m.code = some code ∧ MethodWeaver.passes h c m role code = .ok (woven, prologue) ∧
      Code.validate woven = .ok () ∧ w.method.code = some woven ∧
      List.Forall₂ (fun i i' => i.reread? = some i') woven code' := by
  obtain ⟨w, hw, hread⟩ := hm
  obtain ⟨role, code, hrole, -, hmethod, hpasses⟩ := MethodWeaver.weave_eq_ok hw
  obtain ⟨code₁, rfl, hcode₁⟩ := reread?_method hread
  obtain rfl : code₁ = some code' := hcode'
  have hwoven : w.method.code = code := by rw [hmethod]
  rw [hwoven] at hcode₁
  generalize m.code = x at hpasses
  cases hcode₁ with
  | some hreread =>
    cases hpasses with
    | some hpasses =>
      obtain ⟨prologue, hpasses, hvalid⟩ := hpasses
      exact ⟨w, role, _, _, prologue, hw, hrole, rfl, hpasses, hvalid, hwoven, hreread⟩

/-- A growing loop that the second pass finds in a constructor is there after the first. -/
theorem growsFrom_of_reread {h : Hierarchy} {c : ClassDef} {m : MethodDef} {p : Problem}
    {woven code redirected body : Code}
    (hreread : List.Forall₂ (fun i i' => i.reread? = some i') woven code)
    (hredirected : code.mapM (MethodWeaver.redirect h (.exact h) c) = .ok redirected)
    (hbody : MethodWeaver.forward h (.exact h) c m redirected = .ok body)
    (hfirst : body[0]? = some .loadThis)
    (hgrows : ({ p with code := body.toArray } : Problem).Grows) :
    ({ p with code := woven.toArray } : Problem).GrowsFrom ⟨0, 0⟩ := by
  have hstart := (Problem.growsFrom_first_iff (by simpa using hfirst)).2 hgrows
  have hread := (spreads_forward hredirected hbody).growsFrom_code hstart
  exact (spreads_reread hreread).growsFrom_code hread

section Second

variable {h h' : Hierarchy} {c c' : ClassDef} {m m' : MethodDef} {code' redirected' body' : Code}
  (hm : RereadMethod h c m m') (hsuper : c'.superclass = c.superclass)
  (hcode' : m'.code = some code')
  (hredirected' : code'.mapM (MethodWeaver.redirect h' (.exact h') c') = .ok redirected')
  (hbody' : MethodWeaver.forward h' (.exact h') c' m' redirected' = .ok body')

include hm hsuper hcode' hredirected' hbody'

/-- The superclass call of an entry, which was found once, is searched again with an end. -/
theorem RereadMethod.not_searchesEndlessly (hentry : h.EntryAt m.name m.signature c.name) :
    ¬ MethodWeaver.SearchesEndlessly c' m' body' := by
  rintro ⟨hconstructor', s, hs, hfirst, hgrows⟩
  obtain ⟨role, hrole, hentry⟩ := hentry
  obtain ⟨_, -, hkeeps⟩ := hm.keeps
  obtain ⟨w, -, code, woven, -, hw, -, hcode, -, -, hwoven, hreread⟩ := hm.exists_code hcode'
  obtain ⟨body, woven', position, expected, hwoven'⟩ :=
    MethodWeaver.exists_entryWoven hw hrole hentry hcode
  cases hwoven.symm.trans hwoven'.result
  have hconstructor : m.isConstructor = true := by
    rwa [MethodDef.isConstructor, hkeeps.name] at hconstructor'
  have hfind := hwoven'.site
  rw [MethodWeaver.prologuePosition_constructor hconstructor (hsuper ▸ hs)] at hfind
  obtain ⟨-, τ, hsplices⟩ := exists_splices hwoven'.inserted MethodWeaver.prologueCode_ne_nil
  let p : Problem := ⟨c'.name, m'.name, #[], s, m'.firstFreeSlot.toUInt16⟩
  exact Problem.not_growsFrom_of_splice hfind hsplices MethodWeaver.prologueCode_ne_nil
    MethodWeaver.heightBehind?_prologueCode
    (growsFrom_of_reread (p := p) hreread hredirected' hbody' hfirst hgrows)

/-- A plain constructor whose superclass call is searched without end by the second pass has a
growing loop. -/
theorem RereadMethod.hasGrowingLoop (hname : c'.name = c.name)
    (hplain : (Oracle.exact h).role h.config ⟨c.name, m.name, m.signature⟩ = .ok .plain)
    (hendless : MethodWeaver.SearchesEndlessly c' m' body') : HasGrowingLoop c m := by
  obtain ⟨-, s, hs, hfirst, hgrows⟩ := hendless
  obtain ⟨_, hrole, hkeeps⟩ := hm.keeps
  cases hplain.symm.trans hrole
  obtain ⟨w, _, code, woven, prologue, -, hrole, hcode, hpasses, -, -, hreread⟩ :=
    hm.exists_code hcode'
  cases hplain.symm.trans hrole
  obtain ⟨redirected, body, hredirected, hbody, ⟨-, rfl⟩ | ⟨⟨⟩, -⟩⟩ :=
    MethodWeaver.passes_eq_ok hpasses
  have hslot : m'.firstFreeSlot = m.firstFreeSlot := by
    rw [MethodDef.firstFreeSlot, MethodDef.isStatic, hkeeps.access, hkeeps.signature_of_plain]
    rfl
  rw [hname, hkeeps.name, hslot] at hgrows
  let p : Problem := ⟨c.name, m.name, #[], s, m.firstFreeSlot.toUInt16⟩
  have hwoven := growsFrom_of_reread (p := p) hreread hredirected' hbody' hfirst hgrows
  exact ⟨code, s, hcode, hsuper ▸ hs,
    (spreads_forward hredirected hbody).growsFrom_code (p := p) hwoven⟩

end Second

/-! ## Targets that cannot be moved -/

theorem length_withLoads_le (marked : Instruction → Bool) (place : Instruction → Instruction)
    (code : Code) : (code.withLoads marked place).length ≤ 2 * code.length := by
  induction code with
  | nil => exact Nat.le_refl 0
  | cons i code ih =>
    rw [Code.withLoads_cons]
    cases marked i <;> simp <;> omega

/-- **Only very long code** has targets that cannot be moved, if its branches stay in it. -/
theorem MethodWeaver.Refuses.targetBound_lt {h : Hierarchy} {c : ClassDef} {m : MethodDef}
    {role : Role} {code : Code} {className method : String}
    (hrefuses : Refuses h c m role code (.targetOverflow className method))
    (hvalid : Code.validate code = .ok ()) : Code.targetBound < 2 * code.length + 5 := by
  have htargets := Code.targets_of_validate hvalid
  by_contra hshort
  cases hrefuses with
  | elsewhere hother => cases hother
  | @load redirected calls hredirected hcalls hnone =>
    obtain rfl := eq_map_of_mapM hredirected redirect_eq
    have hmovable : Code.Movable (code.map h.redirected) (forwardDistance (callsBefore calls)) := by
      intro i' hi' t ht
      obtain ⟨i, hi, rfl⟩ := List.mem_map.1 hi'
      rw [Hierarchy.targets_redirected] at ht
      have hlt := htargets i hi t ht
      have hcount : (calls.take t.toNat).countP Option.isSome ≤ t.toNat :=
        List.countP_le_length.trans (List.length_take_le _ _)
      rw [forwardDistance_callsBefore]
      omega
    cases hnone.symm.trans (forwardCalls?_eq_some_iff.2 ⟨hmovable, rfl⟩)
  | @prologue redirected body position expected hredirected hbody hposition hnone =>
    have hrelocates := relocates_forward hredirected hbody
    have hbodyValid := (hrelocates.validate_iff (by simp)).2 hvalid
    have hlength : body.length ≤ 2 * code.length := by
      obtain ⟨-, rfl⟩ := forward_eq_ok_withLoads hredirected hbody
      exact length_withLoads_le _ _ _
    have hle : position ≤ body.length := by
      obtain rfl | ⟨call, _, _, _, _, rfl, hcall⟩ := eq_zero_or_behind_call hposition
      · exact Nat.zero_le _
      · exact (List.getElem?_eq_some_iff.1 hcall).1
    have hblock : (prologueCode h m.firstFreeSlot.toUInt16 expected (amountType? m role)).length
        ≤ 5 := length_prologueCode_le
    have hfits := (Nat.add_le_add hlength hblock).trans (Nat.not_lt.1 hshort)
    cases hnone.symm.trans
      ((Code.insert?_eq_some_iff hle).2 ⟨Code.arrival_lt_of_validate hbodyValid hfits, rfl⟩)

/-! ## The second pass -/

namespace Reread

variable {h h' : Hierarchy} {c c' : ClassDef} {className method : String}

theorem unique {c'' : ClassDef} (hc : Reread h c c') (hc' : Reread h c c'') : c'' = c' := by
  obtain ⟨wc, hw, hread⟩ := hc
  obtain ⟨wc', hw', hread'⟩ := hc'
  cases hw.symm.trans hw'
  exact Option.some.inj (hread'.symm.trans hread)

/-- The methods of a woven class that is stored have valid code. -/
theorem validate {m' : MethodDef} {code' : Code} (hc : Reread h c c') (hm' : m' ∈ c'.methods)
    (hcode' : m'.code = some code') : Code.validate code' = .ok () := by
  obtain ⟨ms, added, hmethods, hms, hadded⟩ := hc.methods_eq
  rw [hmethods, List.mem_append] at hm'
  rcases hm' with hm' | hm'
  · obtain ⟨m, -, hm⟩ := exists_of_forall₂_right hms hm'
    obtain ⟨_, _, _, woven, _, -, -, -, -, hvalid, -, hreread⟩ :=
      RereadMethod.exists_code hm hcode'
    exact (validate_reread hreread).trans hvalid
  · obtain ⟨_, hcode, hvalid⟩ := (hadded m' hm').1.code
    cases hcode'.symm.trans hcode
    exact hvalid

/-- **A class that is searched without end again** has a plain constructor with a growing loop, and
an entry that outranks it. -/
theorem exists_outranks (hc : Reread h c c') (hconfig : h'.config = h.config)
    (hindexed : h.index.get? c.name = some c) (hindexed' : h'.index.get? c'.name = some c')
    (he : ClassWeaver.weave h' (.exact h') c' = .error (.endlessSearch className method)) :
    className = c.name ∧ ∃ entry plain, h.Outranks c entry plain ∧ HasGrowingLoop c plain := by
  obtain ⟨m', hm', role, code', hrole, hcode', hrefuses⟩ :=
    ClassWeaver.exists_refuses he (.inl rfl)
  cases hrefuses with
  | elsewhere hother => cases hother
  | search hentry hredirected hbody hsearches =>
    have hres := hc.resembles
    obtain ⟨m, hm, hreread, hisEntry | ⟨entry, houtranks⟩⟩ :=
      hc.isEntry_or_outranks hconfig hindexed hindexed' hm'
        (by simpa [MethodDef.isConstructor] using hsearches.constructor) ⟨role, hrole, hentry⟩
    · exact absurd hsearches (hreread.not_searchesEndlessly hres.superclass hcode' hredirected hbody
        hisEntry)
    · exact ⟨hres.name, entry, m, houtranks, hreread.hasGrowingLoop hres.superclass hcode'
        hredirected hbody hres.name houtranks.isPlain hsearches⟩

/-- **A class whose targets cannot be moved again** has very long code. -/
theorem exists_long (hc : Reread h c c')
    (he : ClassWeaver.weave h' (.exact h') c' = .error (.targetOverflow className method)) :
    ∃ m ∈ c'.methods, ∃ code, m.code = some code ∧ Code.targetBound < 2 * code.length + 5 := by
  obtain ⟨m', hm', role, code', -, hcode', hrefuses⟩ := ClassWeaver.exists_refuses he (.inr rfl)
  exact ⟨m', hm', code', hcode', hrefuses.targetBound_lt (hc.validate hm' hcode')⟩

end Reread

/-- A pass over an archive that can be indexed fails for one of its classes, and not in a look-up
without an end. -/
theorem exists_class_of_weaveArchive {a : Archive} {dependencies : List Archive} {config : Config}
    {built : ClassIndex.Building} {e : WeaveError}
    (hbuilt : ClassIndex.build (a :: dependencies) = .ok built)
    (hac : Hierarchy.Acyclic ⟨built.index, config⟩)
    (he : weaveArchive a dependencies config = .error e) :
    (∀ className method, e ≠ .endlessLookup className method) ∧ ∃ c ∈ a.classes,
      ClassWeaver.weave ⟨built.index, config⟩ (.exact ⟨built.index, config⟩) c = .error e := by
  have houtcome : ArchiveWeaver.Outcome ⟨built.index, config⟩ a
      ((weaveArchive a dependencies config).map (·.result)) :=
    ArchiveWeaver.outcome_weaveArchive hbuilt
  rw [he] at houtcome
  obtain ⟨_, ⟨⟩, -⟩ | ⟨_, ⟨⟩, entry, hentry, he⟩ := houtcome.cases hac
  refine ⟨?_, ?_⟩
  · rintro className method rfl
    cases hac.failing_agrees.weaveEntry _ entry _ he
  · obtain ⟨c, hc, hweave⟩ := ArchiveWeaver.exists_class_of_build hbuilt hac hentry he
    exact ⟨c, hc, (hac.weaveClass_eq c).symm.trans hweave⟩

/--
**An archive that has a storage class which is no interface can be woven once only**, with the same
dependencies and the same configuration. The second pass gives no archive, and its look-ups have an
end. A search for a superclass call has none only in a class that has a plain constructor with a
growing loop, and before it an entry that is woven to the signature of that constructor. A target
cannot be moved only in code of nearly half as many instructions as there are words. In every other
archive the second pass ends with an error.

Class entries of the archive with one digest are taken to be the same, for only the first class of
a name is indexed.
-/
theorem weaveArchive_twice_fails {input : Archive} {dependencies : List Archive} {config : Config}
    {w : WovenArchive} {built : ClassIndex.Building}
    (hw : weaveArchive input dependencies config = .ok w)
    (hbuilt : ClassIndex.build (input :: dependencies) = .ok built)
    (hac : Hierarchy.Acyclic ⟨built.index, config⟩)
    (hdigests : ClassIndex.DigestsDiffer input.classEntries) {c : ClassDef}
    (hc : c ∈ input.classes) (hclass : c.isInterface = false)
    (hstorage : Hierarchy.isStorage ⟨built.index, config⟩ c.name = true) :
    ∃ e, weaveArchive w.result dependencies config = .error e ∧
      (∀ className method, e ≠ .endlessLookup className method) ∧
      (∀ className method, e = .endlessSearch className method →
        ∃ c ∈ input.classes, c.name = className ∧ ∃ entry plain,
          Hierarchy.Outranks ⟨built.index, config⟩ c entry plain ∧ HasGrowingLoop c plain) ∧
      ∀ className method, e = .targetOverflow className method →
        ∃ c ∈ w.result.classes, ∃ m ∈ c.methods, ∃ code, m.code = some code ∧
          Code.targetBound < 2 * code.length + 5 := by
  rcases hbuilt' : ClassIndex.build (w.result :: dependencies) with e | built'
  · refine ⟨e, by rw [weaveArchive, hbuilt']; rfl, ?_⟩
    obtain ⟨_, rfl | rfl⟩ := ClassIndex.build_eq_error hbuilt' <;> simp
  have hr : Reindexed input dependencies config w built built' := ⟨hw, hbuilt, hbuilt'⟩
  have hac' := hr.resembles.acyclic hac
  rcases hw' : weaveArchive w.result dependencies config with e | w'
  · obtain ⟨hlookup, c', hc', hweave⟩ := exists_class_of_weaveArchive hbuilt' hac' hw'
    obtain ⟨c, hc, hreread⟩ := exists_of_forall₂_right hr.classes hc'
    refine ⟨e, rfl, hlookup, ?_, ?_⟩
    · rintro className method rfl
      obtain ⟨c'', -, hreread', hindexed'⟩ := hr.exists_reread hdigests hc
      obtain rfl := hreread.unique hreread'
      obtain ⟨hname, hcause⟩ := hreread.exists_outranks hr.resembles.config
        (ClassIndex.get?_of_mem_classes hbuilt hdigests hc) hindexed' hweave
      exact ⟨c, hc, hname.symm, hcause⟩
    · rintro className method rfl
      exact ⟨c', hc', hreread.exists_long hweave⟩
  · obtain ⟨c', hc', hreread, hindexed⟩ := hr.exists_reread hdigests hc
    obtain ⟨_, hbuilt'', hwoven⟩ := weaveArchive_exact hw'
    cases hbuilt'.symm.trans hbuilt''
    obtain ⟨wc, -, hwc⟩ := exists_of_forall₂_right hwoven.flip hc'
    exact absurd hwc (hreread.not_woven hr.resembles hclass hstorage hindexed)

/-! ### An account and its terms -/

namespace Terms

/-- A storage class and a text. -/
def archive : Archive where
  entries := [⟨"terms.txt", Bytes.ofText "no overdraft"⟩,
    ⟨"bank/Account.class", Bank.account.toBytes⟩]
  distinct := by decide

/-- The index of the archive. -/
def index : ClassIndex.Building where
  index := ⟨[⟨Bank.account, Bank.account.toBytes⟩]⟩

theorem ofBytes?_toBytes (c : ClassDef) (hc : c ∈ [Bank.account]) :
    ClassDef.ofBytes? c.toBytes = some c := by
  rw [ClassDef.ofBytes?_toBytes]
  cases List.mem_singleton.1 hc
  rfl

theorem classes_archive : archive.classes = [Bank.account] :=
  ClassIndex.classes_of_data rfl ofBytes?_toBytes

theorem build_archive : ClassIndex.build [archive] = .ok index :=
  ClassIndex.build_of_nodup rfl ofBytes?_toBytes (by decide)

theorem acyclic : index.hierarchy.Acyclic :=
  .of_rank (fun x => if x = "bank.Account" then 1 else 0) (by decide)

theorem exists_woven : ∃ w, weaveArchive archive [] {} = .ok w := by
  refine (ArchiveWeaver.exists_weaveArchive_iff build_archive acyclic).2 fun c hc => ?_
  rw [classes_archive] at hc
  cases List.mem_singleton.1 hc
  exact exists_eq_ok_of_isOk (by decide +kernel)

/-- The archive can be woven, and what comes out cannot, which the second pass finds out. -/
theorem woven_once : ∃ w, weaveArchive archive [] {} = .ok w ∧ index.hierarchy.Acyclic ∧
    ClassIndex.DigestsDiffer archive.classEntries ∧ Bank.account ∈ archive.classes ∧
    Bank.account.isInterface = false ∧ index.hierarchy.isStorage Bank.account.name = true ∧
    ∃ e, weaveArchive w.result [] {} = .error e ∧
      ∀ className method, e ≠ .endlessLookup className method ∧
        e ≠ .endlessSearch className method := by
  obtain ⟨w, hw⟩ := exists_woven
  have hdigests : ClassIndex.DigestsDiffer archive.classEntries := by
    have hentries : archive.classEntries = [⟨"bank/Account.class", Bank.account.toBytes⟩] := rfl
    simp [ClassIndex.DigestsDiffer, hentries]
  have hmem : Bank.account ∈ archive.classes := classes_archive ▸ List.mem_singleton_self _
  have hstorage : index.hierarchy.isStorage Bank.account.name = true := by decide
  obtain ⟨e, he, hlookup, hsearch, -⟩ :=
    weaveArchive_twice_fails hw build_archive acyclic hdigests hmem rfl hstorage
  refine ⟨w, hw, acyclic, hdigests, hmem, rfl, hstorage, e, he, fun className method =>
    ⟨hlookup className method, fun hendless => ?_⟩⟩
  obtain ⟨c, hc, -, entry, plain, houtranks, -⟩ := hsearch className method hendless
  rw [classes_archive] at hc
  cases List.mem_singleton.1 hc
  have hentry : entry ∈ Bank.account.methods := houtranks.before.subset List.mem_cons_self
  have hnone : ∀ m ∈ Bank.account.methods, m.name ≠ constructorName := by decide
  exact hnone entry hentry houtranks.entry_name

end Terms

/-! ### A turnstile that turns for ever -/

namespace Turnstile

open MethodWeaver

/-- A constructor that is an entry. -/
def construct : MethodDef where
  name := constructorName
  signature := .void
  annotations := [⟨"runtime.Entry", none⟩]
  code := some [.loadThis, .invoke .special "runtime.Contract" constructorName .void, .return none]

/-- A plain constructor of the signature that the entry is woven to, which never constructs
anything. -/
def turn : MethodDef where
  name := constructorName
  signature := ⟨[.reference "runtime.Contract"], none⟩
  code := some [.loadThis, .loadThis, .goto 1]

def turnstile : ClassDef where
  name := "fair.Turnstile"
  superclass := some "runtime.Contract"
  methods := [construct, turn]

def archive : Archive where
  entries := [⟨"fair/Turnstile.class", turnstile.toBytes⟩]
  distinct := by decide

/-- The index of a class alone. -/
def index (c : ClassDef) : ClassIndex.Building where
  index := ⟨[⟨c, c.toBytes⟩]⟩

/-- The code of the entry, with prologues behind the superclass call that read given slots. -/
def constructCode (slots : List UInt16) : Code :=
  [.loadThis, .invoke .special "runtime.Contract" constructorName .void] ++
    slots.flatMap (fun slot => [.loadThis, .load .reference slot,
      .invoke .special "runtime.Contract" "entry" ⟨[.reference "runtime.Contract"], none⟩]) ++
    [.return none]

/-- The woven entry. -/
def constructed : MethodDef :=
  { construct with signature := turn.signature, code := some (constructCode [1]) }

/-- What the weaver makes of the entry. -/
def wovenConstruct : WovenMethod where
  method := constructed
  prologue := some ⟨⟨"fair.Turnstile", constructorName, .void⟩, .entry, 2⟩

/-- The woven class. -/
def woven : ClassDef :=
  match ClassWeaver.complete (index turnstile).hierarchy turnstile
      [wovenConstruct, ⟨turn, none⟩] with
  | .ok w => w.result
  | .error _ => turnstile

theorem find_construct {slots : List UInt16} (hslots : slots ∈ [[], [1]]) :
    Problem.find ⟨"fair.Turnstile", constructorName, (constructCode slots).toArray,
      "runtime.Contract", (slots.length + 1).toUInt16⟩ = .ok 2 := by
  refine Problem.find_of_searchWithin 3 rfl ?_
  revert slots
  decide +kernel

theorem exists_weaveClass : ∃ w, weaveClass (index turnstile).hierarchy turnstile = .ok w ∧
    w.result = woven := by
  let h := (index turnstile).hierarchy
  have hpasses : (Oracle.exact h).role h.config
        ⟨turnstile.name, construct.name, construct.signature⟩ = .ok .entry ∧
      checkEntry (.exact h) turnstile construct .entry = .ok () ∧
      (constructCode []).mapM (redirect h (.exact h) turnstile) = .ok (constructCode []) ∧
      forward h (.exact h) turnstile construct (constructCode []) = .ok (constructCode []) ∧
      completeEntry h turnstile construct .entry (constructCode []) 2 = .ok wovenConstruct ∧
      MethodWeaver.weave h (.exact h) turnstile turn = .ok ⟨turn, none⟩ ∧
      (ClassWeaver.complete h turnstile [wovenConstruct, ⟨turn, none⟩]).isOk = true := by
    decide +kernel
  obtain ⟨hrole, hcheck, hredirected, hforward, hcomplete, hturn, hclass⟩ := hpasses
  have hconstruct : MethodWeaver.weave h (.exact h) turnstile construct = .ok wovenConstruct := by
    rw [weave_entry hrole rfl hcheck rfl hredirected hforward (by decide),
      prologuePosition_constructor rfl rfl]
    exact bind_eq_ok.2 ⟨_, find_construct List.mem_cons_self, hcomplete⟩
  obtain ⟨w, hw⟩ := exists_eq_ok_of_isOk hclass
  refine ⟨w, weaveClass_eq_ok_iff.2 ?_, ?_⟩
  · rw [ClassWeaver.weave_eq_complete]
    refine bind_eq_ok.2 ⟨_, ?_, hw⟩
    show [construct, turn].mapM (MethodWeaver.weave h (.exact h) turnstile) = _
    simp only [List.mapM_cons, hconstruct, hturn]
    rfl
  · rw [woven, hw]

/-- The woven class is read as it was stored, and both of its constructors are taken for entries. -/
theorem woven_spec :
    woven.reread? = some woven ∧ woven.name = "fair.Turnstile" ∧
      woven.superclass = some "runtime.Contract" ∧
      woven.methods = constructed :: turn :: woven.methods.drop 2 ∧
      (Oracle.exact (index woven).hierarchy).role (index woven).hierarchy.config
        ⟨woven.name, constructorName, turn.signature⟩ = .ok .entry := by
  decide +kernel

/-- The second pass follows the plain constructor for ever. -/
theorem weave_woven : ClassWeaver.weave (index woven).hierarchy (.exact (index woven).hierarchy)
    woven = .error (.endlessSearch "fair.Turnstile" constructorName) := by
  let h := (index woven).hierarchy
  let loop : Code := [.loadThis, .loadThis, .goto 1]
  obtain ⟨-, hname, hsuper, hmethods, hrole⟩ := woven_spec
  have hpasses : (∀ m ∈ [constructed, turn], checkEntry (.exact h) woven m .entry = .ok ()) ∧
      (constructCode [1]).mapM (redirect h (.exact h) woven) = .ok (constructCode [1]) ∧
      forward h (.exact h) woven constructed (constructCode [1]) = .ok (constructCode [1]) ∧
      (completeEntry h woven constructed .entry (constructCode [1]) 2).isOk = true ∧
      loop.mapM (redirect h (.exact h) woven) = .ok loop ∧
      forward h (.exact h) woven turn loop = .ok loop := by
    decide +kernel
  obtain ⟨hcheck, hredirected, hforward, hcomplete, hredirected', hforward'⟩ := hpasses
  obtain ⟨w, hw⟩ := exists_eq_ok_of_isOk hcomplete
  have hconstructed : MethodWeaver.weave h (.exact h) woven constructed = .ok w := by
    rw [weave_entry hrole rfl (hcheck _ List.mem_cons_self) rfl hredirected hforward (by decide),
      prologuePosition_constructor rfl hsuper, hname]
    exact bind_eq_ok.2 ⟨_, find_construct (by decide), hw⟩
  have hturn : MethodWeaver.weave h (.exact h) woven turn =
      .error (.endlessSearch "fair.Turnstile" constructorName) := by
    rw [weave_entry hrole rfl (hcheck _ (by simp)) rfl hredirected' hforward' (by decide),
      prologuePosition_constructor rfl hsuper, hname]
    exact bind_eq_error.2 (.inl (Injection.Tower.find_eq_error rfl))
  rw [ClassWeaver.weave_eq_complete, hmethods]
  simp only [List.mapM_cons]
  rw [show MethodWeaver.weave (index woven).hierarchy _ woven constructed = _ from hconstructed,
    show MethodWeaver.weave (index woven).hierarchy _ woven turn = _ from hturn]
  rfl

/-- An archive of one of the two classes. -/
theorem build_of_data {a : Archive} {c : ClassDef} (hc : c ∈ [turnstile, woven])
    (ha : a.classEntries.map (·.data) = [c].map (·.toBytes)) :
    ClassIndex.build [a] = .ok (index c) ∧ a.classes = [c] := by
  have hread : ∀ d ∈ [c], ClassDef.ofBytes? d.toBytes = some d := by
    intro d hd
    obtain rfl := List.mem_singleton.1 hd
    rw [ClassDef.ofBytes?_toBytes]
    rcases List.mem_pair.1 hc with rfl | rfl
    · rfl
    · exact woven_spec.1
  exact ⟨ClassIndex.build_of_nodup ha hread (List.nodup_singleton _),
    ClassIndex.classes_of_data ha hread⟩

theorem acyclic : (index turnstile).hierarchy.Acyclic :=
  .of_rank (fun x => if x = "fair.Turnstile" then 1 else 0) (by decide)

/-- **A storage class that is woven, and then woven without end.** -/
theorem turns_for_ever : ClassIndex.build [archive] = .ok (index turnstile) ∧
    (index turnstile).hierarchy.Acyclic ∧ ClassIndex.DigestsDiffer archive.classEntries ∧
    turnstile ∈ archive.classes ∧ turnstile.isInterface = false ∧
    (index turnstile).hierarchy.isStorage turnstile.name = true ∧
    ∃ w, weaveArchive archive [] {} = .ok w ∧
      weaveArchive w.result [] {} = .error (.endlessSearch "fair.Turnstile" constructorName) := by
  have hdigests : ClassIndex.DigestsDiffer archive.classEntries := by
    have hentries : archive.classEntries = [⟨"fair/Turnstile.class", turnstile.toBytes⟩] := rfl
    simp [ClassIndex.DigestsDiffer, hentries]
  obtain ⟨hbuilt, hclasses⟩ : ClassIndex.build [archive] = .ok (index turnstile) ∧
      archive.classes = [turnstile] := build_of_data List.mem_cons_self rfl
  obtain ⟨wc, hwc, hresult⟩ := exists_weaveClass
  obtain ⟨w, hw⟩ : ∃ w, weaveArchive archive [] {} = .ok w := by
    refine (ArchiveWeaver.exists_weaveArchive_iff hbuilt acyclic).2 fun c hc => ?_
    rw [hclasses] at hc
    cases List.mem_singleton.1 hc
    exact ⟨wc, hwc⟩
  refine ⟨hbuilt, acyclic, hdigests, by simp [hclasses], rfl, by decide, w, hw, ?_⟩
  -- the woven archive holds the woven class
  have hdata : w.result.classEntries.map (·.data) = [woven].map (·.toBytes) := by
    obtain ⟨_, hbuilt', hwoven⟩ := weaveArchive_exact hw
    cases hbuilt.symm.trans hbuilt'
    rw [hclasses] at hwoven
    obtain ⟨wc', _, hwc', hnil, hreport⟩ := List.forall₂_cons_left_iff.1 hwoven
    cases hnil
    cases (weaveClass_eq_ok_iff.1 hwc).symm.trans hwc'
    rw [weaveArchive_data hw, hreport, List.map_singleton, List.map_singleton, hresult]
  obtain ⟨hbuilt', hclasses'⟩ := build_of_data (by simp) hdata
  have hr : Reindexed archive [] {} w (index turnstile) (index woven) := ⟨hw, hbuilt, hbuilt'⟩
  have hac' : (index woven).hierarchy.Acyclic := hr.resembles.acyclic acyclic
  rcases hagain : weaveArchive w.result [] {} with e | w'
  · obtain ⟨-, c, hc, hweave⟩ := exists_class_of_weaveArchive hbuilt' hac' hagain
    rw [hclasses'] at hc
    cases List.mem_singleton.1 hc
    exact congrArg Except.error (Except.error.inj (hweave.symm.trans weave_woven))
  · obtain ⟨_, hok⟩ := (ArchiveWeaver.exists_weaveArchive_iff hbuilt' hac').1 ⟨w', hagain⟩ woven
      (by simp [hclasses'])
    cases weave_woven.symm.trans (weaveClass_eq_ok_iff.1 hok)

end Turnstile

end StorageWeave.Weaving
