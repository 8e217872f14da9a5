import StorageWeave.Proofs.Members
import StorageWeave.Proofs.Memo
import StorageWeave.Proofs.Simulation

/-!
# The remembering weaver is exact

A look-up of an annotation goes along paths of classes, and one that ends on some length of path
ends on paths that repeat no class (`annotation_of_annotationFrom`). So the answers in a consistent
memo are those of the exact oracle, and what the weaver does with the remembering oracle it does
with the exact one: `Follows h x y` says that a result of `x` is the result of `y`.

What the exact oracle makes of a method, a class, an entry and an archive is opened here once
(`MethodWeaver.weave_eq_ok`, `ClassWeaver.exists_methods`, `ArchiveWeaver.weaveEntry_eq_ok`,
`weaveArchive_eq_ok`). An accepted archive holds the classes that it makes of the input
(`weaveArchive_exact`).
-/

namespace StorageWeave

open Bytecode

namespace Weaving

/-! ## Look-ups end on short paths -/

theorem exists_of_firstSomeM_error {α β : Type} {f g : α → Except WeaveError (Option β)}
    {xs : List α} {r : Option β} {e : WeaveError} (hfg : ∀ x r, f x = .ok r → g x = .ok r)
    (hg : firstSomeM g xs = .ok r) (hf : firstSomeM f xs = .error e) :
    ∃ x r' e', g x = .ok r' ∧ f x = .error e' := by
  induction xs with
  | nil => cases hf
  | cons x xs ih =>
    rw [firstSomeM] at hf hg
    rcases hx : f x with e' | a
    · rcases hgx : g x with e'' | r'
      · rw [hgx] at hg
        cases hg
      · exact ⟨x, r', e', hgx, hx⟩
    · rw [hx] at hf
      rw [hfg x a hx] at hg
      cases a with
      | some b => cases hf
      | none => exact ih hg hf

namespace Hierarchy

variable {h : Hierarchy} {kind : String} {ref : MethodRef} {r : Option Annotation}

/-- Only an indexed class hands a look-up on. -/
theorem annotationAt_of_get? {m : Type → Type} [Monad m] (hget : h.index.get? ref.owner = none)
    (parent : String → m (Option Annotation)) : h.annotationAt kind parent ref = pure none := by
  simp only [annotationAt, hget]

/-- A look-up that needs paths of `n + 1` classes goes over `n` different indexed classes. -/
theorem exists_nodup_of_annotationFrom {n : Nat} {e : WeaveError}
    (hok : h.annotationFrom kind (n + 1) ref = .ok r)
    (herr : h.annotationFrom kind n ref = .error e) :
    ∃ names : List String, names.Nodup ∧ names.length = n ∧ ∀ z ∈ names,
      (h.index.get? z).isSome ∧
        ∃ r', h.annotationFrom kind (n + 1) { ref with owner := z } = .ok r' := by
  induction n generalizing ref r e with
  | zero => exact ⟨[], List.nodup_nil, rfl, by simp⟩
  | succ n ih =>
    have hfail := herr
    rw [annotationFrom] at hok herr
    have hindexed : (h.index.get? ref.owner).isSome := by
      by_contra hnone
      rw [annotationAt_of_get? (Option.not_isSome_iff_eq_none.1 hnone)] at herr
      cases herr
    obtain ⟨a, -, ha⟩ | ⟨parents, hparents⟩ := h.annotationAt_cases kind ref
    · rw [ha] at herr
      cases herr
    · -- some parent needs exactly one class less
      rw [hparents] at hok herr
      obtain ⟨parent, r', e', hok', herr'⟩ :=
        exists_of_firstSomeM_error (fun _ _ => annotationFrom_succ) hok herr
      obtain ⟨names, hnodup, hlength, hnames⟩ := ih hok' herr'
      have hnew : ref.owner ∉ names := by
        intro hmem
        obtain ⟨-, r'', hr''⟩ := hnames _ hmem
        rw [show h.annotationFrom kind (n + 1) ref = .ok r'' from hr''] at hfail
        cases hfail
      refine ⟨ref.owner :: names, List.nodup_cons.2 ⟨hnew, hnodup⟩, by simp [hlength], ?_⟩
      intro z hz
      rcases List.mem_cons.1 hz with rfl | hz
      · exact ⟨hindexed, r, by rw [annotationFrom, hparents, hok]⟩
      · obtain ⟨hz, r'', hr''⟩ := hnames z hz
        exact ⟨hz, r'', annotationFrom_succ hr''⟩

/-- **A look-up that ends** on paths of some length gives the answer of the hierarchy. -/
theorem annotation_of_annotationFrom {n : Nat} (hn : h.annotationFrom kind n ref = .ok r) :
    h.annotation kind ref = .ok r := by
  have hex : ∃ n, h.annotationFrom kind n ref = .ok r := ⟨n, hn⟩
  have hleast := Nat.find_spec hex
  rcases hk : Nat.find hex with _ | k
  · rw [hk] at hleast
    cases hleast
  · rw [hk] at hleast
    refine annotationFrom_mono ?_ hleast
    rcases hless : h.annotationFrom kind k ref with e | r'
    · obtain ⟨names, hnodup, hlength, hnames⟩ := exists_nodup_of_annotationFrom hleast hless
      have hle := ClassIndex.length_le_size hnodup fun z hz => (hnames z hz).1
      rw [pathBound]
      omega
    · have hr : r' = r := by
        have := annotationFrom_succ hless
        rw [hleast] at this
        exact (Except.ok.inj this).symm
      exact absurd (hr ▸ hless) (Nat.find_min hex (by omega))

end Hierarchy

/-! ## Following the exact oracle -/

/-- The results of a remembering computation are the result of an exact one. -/
def Follows (h : Hierarchy) {α : Type} (x : Remembering α) (y : Except WeaveError α) : Prop :=
  Sound h x fun a => y = .ok a

namespace Follows

variable {h : Hierarchy} {α : Type} {x : Remembering α} {y : Except WeaveError α}

/-- A computation that starts with nothing remembered ends as the exact one. -/
theorem run' {a : α} (hx : Follows h x y) (hrun : x.run' {} = .ok a) : y = .ok a := by
  rw [show x.run' {} = Prod.fst <$> x.run {} from rfl] at hrun
  rcases hr : x.run {} with e | ⟨a', memo⟩
  · rw [hr] at hrun
    cases hrun
  · rw [hr] at hrun
    cases hrun
    exact (hx {} _ memo (Memo.consistent_empty h) hr).2

end Follows

/-- Following as a relation between the computations of the two oracles. -/
def following (h : Hierarchy) : Simulation Remembering (Except WeaveError) where
  Rel := Follows h
  pure _ := Sound.pure rfl
  bind hx hf := Sound.bind hx fun a ha => by rw [ha]; exact hf a
  throw _ := Sound.throw _

theorem following_agrees (h : Hierarchy) : (following h).Agrees (.remembering h) (.exact h) where
  isStorage name := (Sound.isStorage name).imp fun _ ha => congrArg Except.ok ha.symm
  isContract name := (Sound.isContract name).imp fun _ ha => congrArg Except.ok ha.symm
  lookUp kind ref := by
    refine (Sound.inherited kind ref).imp ?_
    rintro a ⟨n, hn⟩
    exact Hierarchy.annotation_of_annotationFrom hn

/-- A method is woven as the exact oracle says. -/
theorem weaveMethod_exact {h : Hierarchy} {c : ClassDef} {method : MethodDef} {w : WovenMethod}
    (hw : weaveMethod h c method = .ok w) :
    MethodWeaver.weave h (.exact h) c method = .ok w :=
  Follows.run' ((following_agrees h).weaveMethod h c method) hw

/-! ## Methods -/

/-- The signature of a method of a role, and of the calls of it. -/
def Role.signature (role : Role) (config : Config) (s : Signature) : Signature :=
  if role.isEntry then config.widen s else s

namespace MethodWeaver

section Passes

variable (h : Hierarchy) (c : ClassDef) (m : MethodDef) (role : Role)

/-- The code of a method and its prologue, before the check of the branches. -/
def passes (code : Code) : Except WeaveError (Code × Option Prologue) := do
  let redirected ← code.mapM (redirect h (.exact h) c)
  let body ← forward h (.exact h) c m redirected
  if role.isEntry then
    let (woven, prologue) ← injectPrologue h (.exact h) c m role body
    return (woven, some prologue)
  else return (body, none)

theorem weaveCode_eq_passes (code : Code) : weaveCode h (.exact h) c m role code = do
    let r ← passes h c m role code
    checkCode c m r.1
    return r := by
  unfold weaveCode passes
  cases role.isEntry <;> simp

end Passes

variable {h : Hierarchy} {c : ClassDef} {m : MethodDef} {role : Role} {code woven : Code}

/-- The passes over the code: accesses, calls, and the prologue of an entry. -/
theorem passes_eq_ok {prologue : Option Prologue}
    (hr : passes h c m role code = .ok (woven, prologue)) :
    ∃ redirected body, code.mapM (redirect h (.exact h) c) = .ok redirected ∧
      forward h (.exact h) c m redirected = .ok body ∧
      (role.isEntry = false ∧ woven = body ∨
        role.isEntry = true ∧ ∃ prologue', injectPrologue h (.exact h) c m role body =
          .ok (woven, prologue')) := by
  obtain ⟨redirected, hredirected, hr⟩ := bind_eq_ok.1 hr
  obtain ⟨body, hbody, hr⟩ := bind_eq_ok.1 hr
  refine ⟨redirected, body, hredirected, hbody, ?_⟩
  split at hr
  · next hentry =>
    obtain ⟨⟨spliced, prologue'⟩, hinject, hr⟩ := bind_eq_ok.1 hr
    cases hr
    exact .inr ⟨hentry, prologue', hinject⟩
  · next hplain =>
    cases hr
    exact .inl ⟨by simpa using hplain, rfl⟩

theorem weaveCode_eq_ok {r : Code × Option Prologue}
    (hr : weaveCode h (.exact h) c m role code = .ok r) :
    passes h c m role code = .ok r ∧ Code.validate r.1 = .ok () := by
  rw [weaveCode_eq_passes] at hr
  obtain ⟨r', hpasses, hr⟩ := bind_eq_ok.1 hr
  obtain ⟨⟨⟩, hcheck, hr⟩ := bind_eq_ok.1 hr
  cases hr
  refine ⟨hpasses, ?_⟩
  unfold checkCode at hcheck
  split at hcheck
  · assumption
  · cases hcheck

/-- **What a method is woven to**: it has the signature of its role, and code that came through the
passes and the check if it had code. -/
theorem weave_eq_ok {w : WovenMethod} (hw : weave h (.exact h) c m = .ok w) :
    ∃ role code', (Oracle.exact h).role h.config ⟨c.name, m.name, m.signature⟩ = .ok role ∧
      checkEntry (.exact h) c m role = .ok () ∧
      w.method = { m with signature := role.signature h.config m.signature, code := code' } ∧
      Option.Rel (fun code woven => ∃ prologue,
        passes h c m role code = .ok (woven, prologue) ∧ Code.validate woven = .ok ())
        m.code code' := by
  obtain ⟨role, hrole, hw⟩ := bind_eq_ok.1 hw
  obtain ⟨⟨⟩, hcheck, hw⟩ := bind_eq_ok.1 hw
  rcases hcode : m.code with _ | code
  · simp only [hcode] at hw
    cases hw
    exact ⟨role, none, hrole, hcheck, rfl, .none⟩
  · simp only [hcode] at hw
    obtain ⟨⟨woven, prologue⟩, hweave, hw⟩ := bind_eq_ok.1 hw
    cases hw
    exact ⟨role, some woven, hrole, hcheck, rfl, .some ⟨prologue, weaveCode_eq_ok hweave⟩⟩

end MethodWeaver

/-! ## Classes and archives -/

theorem ClassWeaver.follows_weave (h : Hierarchy) (c : ClassDef) : Follows h
    (ClassWeaver.weave h (.remembering h) c) (ClassWeaver.weave h (.exact h) c) :=
  (following_agrees h).weaveClass h c

/-- The methods that a class is given. -/
def Augmentation.added (h : Hierarchy) (c : ClassDef) : Except WeaveError (List MethodDef) :=
  if c.isInterface = false ∧ h.isStorage c.name = true then do members h c (← h.classify c)
  else .ok []

/-- `c'` is `c` with its methods woven and the added ones behind them. -/
structure Output (h : Hierarchy) (c c' : ClassDef) (ms : List WovenMethod)
    (added : List MethodDef) : Prop where
  name : c'.name = c.name
  superclass : c'.superclass = c.superclass
  woven : List.Forall₂ (fun m wm => MethodWeaver.weave h (.exact h) c m = .ok wm) c.methods ms
  given : Augmentation.added h c = .ok added
  methods : c'.methods = ms.map (·.method) ++ added
  members : c.isInterface = false → h.isStorage c.name = true → ∃ k, h.classify c = .ok k ∧
    (∀ f ∈ k.lazyFields, Augmentation.HasAccessors h c f c') ∧
      Has c' (Augmentation.constructor h c k) ∧ Has c' (Augmentation.extractUpdates h c k)

theorem ofExcept_eq {ε α : Type} (x : Except ε α) : (MonadExcept.ofExcept x : Except ε α) = x := by
  cases x <;> rfl

/-- What becomes of a class once its methods are woven. -/
def ClassWeaver.complete (h : Hierarchy) (c : ClassDef) (methods : List WovenMethod) :
    Except WeaveError WovenClass := do
  let out := { c with methods := methods.map (·.method) }
  let prologues := methods.filterMap (·.prologue)
  if !c.isInterface && h.isStorage c.name then
    let (result, counts) ← augment h c out
    return ⟨result, true, h.isContract c.name, prologues, some counts⟩
  else return ⟨out, false, h.isContract c.name, prologues, none⟩

/-- A class is woven method by method, and then completed. -/
theorem ClassWeaver.weave_eq_complete (h : Hierarchy) (c : ClassDef) : weave h (.exact h) c =
    c.methods.mapM (MethodWeaver.weave h (.exact h) c) >>= complete h c := by
  have hcontract : (Oracle.exact h).isContract c.name = .ok (h.isContract c.name) := rfl
  have hstorage : (Oracle.exact h).isStorage c.name = .ok (h.isStorage c.name) := rfl
  simp only [weave, hcontract, hstorage, ofExcept_eq]
  rcases c.methods.mapM (MethodWeaver.weave h (.exact h) c) with e | methods
  · cases c.isInterface <;> rfl
  · change _ = complete h c methods
    unfold complete
    cases c.isInterface <;> cases h.isStorage c.name <;> rfl

/-- The methods of a class are woven, and the members are added to a storage class that is no
interface. -/
theorem ClassWeaver.exists_methods {h : Hierarchy} {c : ClassDef} {wc : WovenClass}
    (hw : ClassWeaver.weave h (.exact h) c = .ok wc) :
    ∃ ms, List.Forall₂ (fun m wm => MethodWeaver.weave h (.exact h) c m = .ok wm) c.methods ms ∧
      if c.isInterface = false ∧ h.isStorage c.name = true then
        ∃ k d, h.classify c = .ok k ∧ wc.result = d.toClass ∧
          Augmentation.addMembers h c k (.ofClass { c with methods := ms.map (·.method) }) = .ok d
      else wc.result = { c with methods := ms.map (·.method) } := by
  rw [weave_eq_complete] at hw
  obtain ⟨ms, hms, hw⟩ := bind_eq_ok.1 hw
  refine ⟨ms, forall₂_of_mapM hms, ?_⟩
  unfold complete at hw
  dsimp only at hw
  split at hw
  · next hstorage =>
    obtain ⟨⟨out, counts⟩, hout, hw⟩ := bind_eq_ok.1 hw
    obtain ⟨k, hk, hout⟩ := bind_eq_ok.1 hout
    obtain ⟨result, hresult, hout⟩ := bind_eq_ok.1 hout
    obtain ⟨d, hd, hresult⟩ := bind_eq_ok.1 hresult
    cases hw
    cases hout
    cases hresult
    rw [if_pos (by simpa using hstorage)]
    exact ⟨k, d, hk, rfl, hd⟩
  · next hstorage =>
    cases hw
    rw [if_neg (by simpa using hstorage)]

/-- **A class** is woven to its woven methods and those it is given. -/
theorem ClassWeaver.exists_output {h : Hierarchy} {c : ClassDef} {wc : WovenClass}
    (hw : ClassWeaver.weave h (.exact h) c = .ok wc) :
    ∃ ms added, Output h c wc.result ms added := by
  obtain ⟨ms, hms, hresult⟩ := ClassWeaver.exists_methods hw
  split at hresult
  · next hstorage =>
    obtain ⟨k, d, hk, hresult, hd⟩ := hresult
    obtain ⟨added, hadded, -, -, hd'⟩ := Augmentation.addMembers_eq_ok hd
    have hmembers := (Augmentation.addMembers_spec hd).2
    rw [Draft.toClass_ofClass, ← hresult] at hd'
    rw [← hresult] at hmembers
    refine ⟨ms, added, by rw [hd'], by rw [hd'], hms, ?_, by rw [hd'],
      fun _ _ => ⟨k, hk, hmembers⟩⟩
    rw [Augmentation.added, if_pos hstorage, hk]
    exact hadded
  · next hstorage =>
    rw [hresult]
    refine ⟨ms, [], rfl, rfl, hms, ?_, by simp, fun hi hs => absurd ⟨hi, hs⟩ hstorage⟩
    rw [Augmentation.added, if_neg hstorage]

end Weaving

/-- The classes of an archive, in the order of their entries. -/
def Archive.classes (a : Archive) : List ClassDef :=
  a.classEntries.filterMap fun e => ClassDef.ofBytes? e.data

namespace Weaving

/-- An entry is copied, or holds a class that is woven. -/
theorem ArchiveWeaver.weaveEntry_eq_ok {h : Hierarchy} {e : Archive.Entry} {r : WovenEntry}
    (hr : weaveEntry h (.exact h) e = .ok r) :
    (e.isClass = false ∧ r = ⟨e, none⟩) ∨ e.isClass = true ∧ ∃ c wc,
      ClassDef.ofBytes? e.data = some c ∧ ClassWeaver.weave h (.exact h) c = .ok wc ∧
      r = ⟨⟨e.name, wc.result.toBytes⟩, some wc⟩ := by
  unfold weaveEntry at hr
  split at hr
  · next he =>
    split at hr
    · cases hr
    · next c hc =>
      obtain ⟨wc, hwc, hr⟩ := bind_eq_ok.1 hr
      cases hr
      exact .inr ⟨he, c, wc, hc, hwc, rfl⟩
  · next he =>
    cases hr
    exact .inl ⟨by simpa using he, rfl⟩

/-- **An accepted archive** has been woven entry by entry, each as the exact oracle says. -/
theorem weaveArchive_eq_ok {input : Archive} {dependencies : List Archive} {config : Config}
    {w : WovenArchive} (hw : weaveArchive input dependencies config = .ok w) :
    ∃ built woven, ClassIndex.build (input :: dependencies) = .ok built ∧
      List.Forall₂ (fun e r => ArchiveWeaver.weaveEntry ⟨built.index, config⟩
        (.exact ⟨built.index, config⟩) e = .ok r) input.entries woven ∧
      Archive.empty.pushAll (woven.map (·.entry)) = .ok w.result ∧
      w.report.classes = woven.filterMap (·.woven) := by
  obtain ⟨built, hbuilt, hw⟩ := bind_eq_ok.1 hw
  obtain ⟨⟨woven, memo⟩, hwoven, hw⟩ := bind_eq_ok.1 hw
  obtain ⟨result, hresult, hw⟩ := bind_eq_ok.1 hw
  cases hw
  let h : Hierarchy := ⟨built.index, config⟩
  have hfollows : Follows h (input.entries.mapM (ArchiveWeaver.weaveEntry h (.remembering h)))
      (input.entries.mapM (ArchiveWeaver.weaveEntry h (.exact h))) :=
    (following h).mapM ((following_agrees h).weaveEntry h) input.entries
  refine ⟨built, woven, hbuilt,
    forall₂_of_mapM (hfollows {} _ memo (Memo.consistent_empty h) hwoven).2, ?_, rfl⟩
  rcases hpush : Archive.empty.pushAll (woven.map (·.entry)) with e | a
  · rw [hpush] at hresult
    cases hresult
  · rw [hpush] at hresult
    exact hpush.trans (congrArg Except.ok (Except.ok.inj hresult))

/-- **A woven archive** holds what the exact oracle makes of the classes of its input. -/
theorem weaveArchive_exact {input : Archive} {dependencies : List Archive} {config : Config}
    {w : WovenArchive} (hw : weaveArchive input dependencies config = .ok w) :
    ∃ built, ClassIndex.build (input :: dependencies) = .ok built ∧
      List.Forall₂ (fun c wc => ClassWeaver.weave ⟨built.index, config⟩
        (.exact ⟨built.index, config⟩) c = .ok wc) input.classes w.report.classes := by
  obtain ⟨built, woven, hbuilt, hentries, -, hreport⟩ := weaveArchive_eq_ok hw
  refine ⟨built, hbuilt, ?_⟩
  have hclasses : input.classes = input.entries.filterMap fun e =>
      if e.isClass then ClassDef.ofBytes? e.data else none := by
    rw [Archive.classes, Archive.classEntries, List.filterMap_filter]
  rw [hclasses, hreport]
  refine List.rel_filterMap (fun e r he => ?_) hentries
  obtain ⟨hclass, rfl⟩ | ⟨hclass, c, wc, hc, hwc, rfl⟩ := ArchiveWeaver.weaveEntry_eq_ok he
  · rw [hclass]
    exact .none
  · rw [hclass, if_pos rfl, hc]
    exact .some hwc

end Weaving

end StorageWeave
