import Mathlib.Data.List.DropRight
import StorageWeave.Proofs.Labels

/-!
# Labels that are rejected

A label that was put down before is rejected, but it is bound to its new position all the same. So
after directives whose rejected labels are passed over, a label stands at its last address
(`Assembler.labels_followed`), and without the rejected labels at its first one
(`Assembler.assembles_accepted`). Finishing gives the same in both cases exactly if no branch sees
the difference (`rejected_labels_unseen_iff`). A branch back to a label sees it
(`Detour.rejected_label_seen`).
-/

namespace StorageWeave.Bytecode

theorem Instruction.mapTargets_const_eq_iff {i : Instruction} {t t' : Target} :
    (i.mapTargets fun _ => t) = (i.mapTargets fun _ => t') ↔ i.targets ≠ [] → t = t' := by
  constructor
  · intro h htargets
    have hmap : i.targets.map (fun _ => t) = i.targets.map fun _ => t' := by
      simpa only [targets_mapTargets] using congrArg targets h
    obtain ⟨u, hu⟩ := List.exists_mem_of_ne_nil _ htargets
    exact List.map_inj_left.1 hmap u hu
  · intro h
    refine mapTargets_congr fun u hu => h ?_
    exact List.ne_nil_of_mem hu

/-- The code, if every branch stays in it. -/
def Code.checked (code : Code) : Except CodeError Code := do
  code.validate
  return code

theorem Code.checked_of_ok {code : Code} (h : code.validate = .ok ()) :
    code.checked = .ok code := by
  rw [checked, h]
  rfl

theorem Code.checked_of_error {code : Code} {e : CodeError} (h : code.validate = .error e) :
    code.checked = .error e := by
  rw [checked, h]
  rfl

/-- Two codes are checked alike exactly if they are the same or fail alike. -/
theorem Code.checked_eq_iff {code code' : Code} :
    code.checked = code'.checked ↔
      code = code' ∨ ∃ e, code.validate = .error e ∧ code'.validate = .error e := by
  constructor
  · intro h
    rcases hv : code.validate with e | _ <;> rcases hv' : code'.validate with e' | _
    · rw [checked_of_error hv, checked_of_error hv'] at h
      cases h
      exact .inr ⟨e, rfl, rfl⟩
    · rw [checked_of_error hv, checked_of_ok hv'] at h
      cases h
    · rw [checked_of_ok hv, checked_of_error hv'] at h
      cases h
    · rw [checked_of_ok hv, checked_of_ok hv'] at h
      exact .inl (Except.ok.inj h)
  · rintro (rfl | ⟨e, he, he'⟩)
    · rfl
    · rw [checked_of_error he, checked_of_error he']

namespace Directive

variable {ds : List Directive} {d : Directive} {l : String}

/-- The number of instructions before a label is put down for the last time. -/
def lastAddress (ds : List Directive) (l : String) : Nat :=
  ((ds.rdropWhile (· ≠ .label l)).flatMap raw).length

theorem lastAddress_concat_label (ds : List Directive) (l : String) :
    lastAddress (ds ++ [.label l]) l = (ds.flatMap raw).length := by
  rw [lastAddress, List.rdropWhile_concat_neg _ _ _ (by simp), List.flatMap_append,
    List.length_append]
  rfl

theorem lastAddress_concat_of_ne (hd : d ≠ .label l) :
    lastAddress (ds ++ [d]) l = lastAddress ds l := by
  rw [lastAddress, List.rdropWhile_concat_pos _ _ _ (by simpa using hd), lastAddress]

/-- Later directives do not move the first address of a label. -/
theorem address_append_of_mem (hl : .label l ∈ ds) (es : List Directive) :
    address (ds ++ es) l = address ds l := by
  obtain ⟨pre, post, hds, hpre⟩ := List.eq_append_cons_of_mem hl
  rw [address_eq hds hpre]
  exact address_eq (by rw [hds, List.append_assoc, List.cons_append]) hpre

/-- Two ways to address labels give the same code exactly if branches with targets see no
difference. -/
theorem flatMap_resolved_eq_iff {f g : String → Nat} :
    ds.flatMap (resolved f) = ds.flatMap (resolved g) ↔
      ∀ i l, .branch i l ∈ ds → i.targets ≠ [] → (f l).toUInt64 = (g l).toUInt64 := by
  induction ds with
  | nil => simp
  | cons d ds ih =>
    cases d with
    | emit i => simp [resolved, ih]
    | label l => simp [resolved, ih]
    | branch i l =>
      simp only [List.flatMap_cons, resolved, List.singleton_append, List.cons.injEq, ih,
        Instruction.mapTargets_const_eq_iff, List.mem_cons, Directive.branch.injEq]
      constructor
      · rintro ⟨hi, hrest⟩ j m (⟨rfl, rfl⟩ | hj)
        · exact hi
        · exact hrest j m hj
      · exact fun h => ⟨h i l (.inl ⟨rfl, rfl⟩), fun j m hj => h j m (.inr hj)⟩

end Directive

open Directive

namespace Assembler

variable {a b : Assembler} {ds : List Directive} {d : Directive} {l : String}

/-- The directives that do not fail when those that fail are passed over. -/
def accepted (a : Assembler) : List Directive → List Directive
  | [] => []
  | d :: ds =>
    if (a.step d).2.isNone then d :: accepted (a.step d).1 ds else accepted (a.step d).1 ds

theorem followed_concat (a : Assembler) (ds : List Directive) (d : Directive) :
    a.followed (ds ++ [d]) = ((a.followed ds).step d).1 := by
  simp [followed]

theorem accepted_concat (a : Assembler) (ds : List Directive) (d : Directive) :
    a.accepted (ds ++ [d]) =
      a.accepted ds ++ if ((a.followed ds).step d).2.isNone then [d] else [] := by
  induction ds generalizing a with
  | nil => rfl
  | cons e ds ih =>
    have hfollowed : a.followed (e :: ds) = ((a.step e).1).followed ds := rfl
    simp only [List.cons_append, accepted, ih, hfollowed]
    split <;> rfl

/-- Only labels are rejected. -/
theorem accepted_cons_label (a : Assembler) (l : String) (ds : List Directive) :
    a.accepted (.label l :: ds) = .label l :: accepted (a.bindLabel l).1 ds ∨
      a.accepted (.label l :: ds) = accepted (a.bindLabel l).1 ds := by
  rw [accepted]
  split
  · exact .inl rfl
  · exact .inr rfl

theorem flatMap_raw_accepted (a : Assembler) (ds : List Directive) :
    (a.accepted ds).flatMap raw = ds.flatMap raw := by
  induction ds generalizing a with
  | nil => rfl
  | cons d ds ih =>
    cases d with
    | emit i => exact congrArg (i :: ·) (ih (a.emit i))
    | branch i l => exact congrArg (i :: ·) (ih (a.branch i l))
    | label l => rcases a.accepted_cons_label l ds with h | h <;> rw [h] <;> exact ih _

theorem labelled_accepted (a : Assembler) (ds : List Directive) (n : Nat) :
    labelled n (a.accepted ds) = labelled n ds := by
  induction ds generalizing a n with
  | nil => rfl
  | cons d ds ih =>
    cases d with
    | emit i => exact ih (a.emit i) (n + 1)
    | branch i l => exact congrArg ((n, l) :: ·) (ih (a.branch i l) (n + 1))
    | label l => rcases a.accepted_cons_label l ds with h | h <;> rw [h] <;> exact ih _ n

/-! ## What directives leave behind -/

theorem emitted_followed (a : Assembler) (ds : List Directive) :
    (a.followed ds).emitted.toList = a.emitted.toList ++ ds.flatMap raw := by
  induction ds generalizing a with
  | nil => simp [followed]
  | cons d ds ih =>
    rw [show a.followed (d :: ds) = ((a.step d).1).followed ds from rfl, ih]
    cases d <;> simp [step, emit, branch, bindLabel, raw]

theorem references_followed (a : Assembler) (ds : List Directive) :
    (a.followed ds).references.reverse = a.references.reverse ++ labelled a.position ds := by
  induction ds generalizing a with
  | nil => simp [followed, labelled]
  | cons d ds ih =>
    rw [show a.followed (d :: ds) = ((a.step d).1).followed ds from rfl, ih]
    cases d <;> simp [step, emit, branch, bindLabel, labelled, position]

/-- A step binds a label that it puts down to the next position, and keeps the others. -/
theorem labels_step (a : Assembler) (d : Directive) (l : String) :
    (a.step d).1.labels[l]? = if d = .label l then some a.position else a.labels[l]? := by
  cases d with
  | emit i => simp [step, emit]
  | branch i l' => simp [step, branch]
  | label l' => simp [step, bindLabel, Std.TreeMap.getElem?_insert]

/-- **A label that is rejected is rebound**: labels are bound to their last addresses. -/
theorem labels_followed (ds : List Directive) (l : String) :
    (followed {} ds).labels[l]? = if .label l ∈ ds then some (lastAddress ds l) else none := by
  induction ds using List.reverseRecOn with
  | nil => simp [followed]
  | append_singleton ds d ih =>
    rw [followed_concat, labels_step]
    split
    · next hd =>
      subst hd
      rw [lastAddress_concat_label, if_pos (by simp), position, ← Array.length_toList,
        emitted_followed]
      rfl
    · next hd =>
      have hmem : .label l ∈ ds ++ [d] ↔ .label l ∈ ds := by simp [Ne.symm hd]
      rw [lastAddress_concat_of_ne hd, ih]
      simp only [hmem]

/-- The assembler has followed directives, with the labels bound to given addresses. -/
structure Assembles (a : Assembler) (ds : List Directive) (addresses : String → Nat) : Prop where
  emitted : a.emitted.toList = ds.flatMap raw
  references : a.references.reverse = labelled 0 ds
  labels : ∀ l : String, a.labels[l]? = if .label l ∈ ds then some (addresses l) else none

theorem assembles_followed (ds : List Directive) :
    Assembles (followed {} ds) ds (lastAddress ds) :=
  ⟨emitted_followed {} ds, references_followed {} ds, labels_followed ds⟩

theorem isNone_step_followed (ds : List Directive) (d : Directive) :
    ((followed {} ds).step d).2.isNone = true ↔ ∀ l, d = .label l → .label l ∉ ds := by
  cases d with
  | emit i => simp [step]
  | branch i l => simp [step]
  | label l =>
    rw [step, bindLabel_followed]
    split <;> simp_all

/-- Without the rejected labels, the labels are bound to their first addresses. -/
theorem labels_accepted (ds : List Directive) (l : String) :
    (followed {} (accepted {} ds)).labels[l]? =
      if .label l ∈ ds then some (address ds l) else none := by
  induction ds using List.reverseRecOn with
  | nil => simp [accepted, followed]
  | append_singleton ds d ih =>
    have hposition : (followed {} (accepted {} ds)).position = (ds.flatMap raw).length := by
      rw [position, ← Array.length_toList, emitted_followed, flatMap_raw_accepted]
      rfl
    rw [accepted_concat]
    -- the last directive repeats the label, puts it down first, or does not concern it
    by_cases hd : d = .label l
    · subst hd
      by_cases hl : .label l ∈ ds
      · have hrejected : ¬ ((followed {} ds).step (.label l)).2.isNone = true := by
          rw [isNone_step_followed]
          simp [hl]
        rw [if_neg hrejected, List.append_nil, ih, if_pos hl, if_pos (by simp),
          address_append_of_mem hl]
      · have haccepted : ((followed {} ds).step (.label l)).2.isNone = true := by
          rw [isNone_step_followed]
          simpa using hl
        rw [if_pos haccepted, followed_concat, labels_step, if_pos rfl, if_pos (by simp),
          hposition, address_eq rfl hl]
    · have hmem : .label l ∈ ds ++ [d] ↔ .label l ∈ ds := by simp [Ne.symm hd]
      have hkeep : (followed {} (accepted {} ds ++
          if ((followed {} ds).step d).2.isNone then [d] else [])).labels[l]? =
          (followed {} (accepted {} ds)).labels[l]? := by
        split
        · rw [followed_concat, labels_step, if_neg hd]
        · rw [List.append_nil]
      rw [hkeep, ih]
      simp only [hmem]
      split
      · next hl => rw [address_append_of_mem hl]
      · rfl

theorem assembles_accepted (ds : List Directive) :
    Assembles (followed {} (accepted {} ds)) ds (address ds) where
  emitted := (emitted_followed {} _).trans (flatMap_raw_accepted {} ds)
  references := (references_followed {} _).trans (labelled_accepted {} ds 0)
  labels := labels_accepted ds

/-! ## Finishing -/

/-- The first label that is not bound is reported, whatever the addresses of the others. -/
theorem exists_resolve_eq_error {labels labels' : Std.TreeMap String Nat}
    {references : List (Nat × String)} (code code' : Array Instruction)
    (hlabels : ∀ l : String, labels[l]? = none ↔ labels'[l]? = none)
    (h : ∃ r ∈ references, labels[r.2]? = none) :
    ∃ e, resolve labels references code = .error e ∧
      resolve labels' references code' = .error e := by
  induction references generalizing code code' with
  | nil =>
    obtain ⟨r, hr, -⟩ := h
    cases hr
  | cons r references ih =>
    obtain ⟨position, l⟩ := r
    cases hl : labels[l]? with
    | none =>
      have hl' := (hlabels l).1 hl
      exact ⟨.undefinedLabel l, by simp only [resolve, hl], by simp only [resolve, hl']⟩
    | some n =>
      obtain ⟨n', hl'⟩ : ∃ n', labels'[l]? = some n' := by
        refine Option.ne_none_iff_exists'.1 fun hnone => ?_
        rw [(hlabels l).2 hnone] at hl
        cases hl
      obtain ⟨r, hr, hnone⟩ := h
      rcases List.mem_cons.1 hr with rfl | hr
      · rw [hl] at hnone
        cases hnone
      · simp only [resolve, hl, hl']
        exact ih _ _ ⟨r, hr, hnone⟩

namespace Assembles

variable {f g : String → Nat}

/-- Whether a label is bound does not depend on its address. -/
theorem labels_eq_none_iff (h : Assembles a ds f) (l : String) :
    a.labels[l]? = none ↔ .label l ∉ ds := by
  rw [h.labels]
  split <;> simp_all

/-- A label that is not put down is reported, wherever the others stand. -/
theorem finish_eq_of_unbound (ha : Assembles a ds f) (hb : Assembles b ds g)
    (h : ∃ i l, .branch i l ∈ ds ∧ .label l ∉ ds) : a.finish = b.finish := by
  obtain ⟨i, l, hi, hl⟩ := h
  obtain ⟨k, hk⟩ := exists_mem_labelled hi 0
  obtain ⟨e, hae, hbe⟩ := exists_resolve_eq_error a.emitted b.emitted
    (fun l => (ha.labels_eq_none_iff l).trans (hb.labels_eq_none_iff l).symm)
    ⟨(k, l), hk, (ha.labels_eq_none_iff l).2 hl⟩
  rw [finish, finish, ha.references, hb.references, hae, hbe]

/-- With all labels bound, finishing checks the instructions with the addresses of their labels. -/
theorem finish_eq_checked (h : Assembles a ds f)
    (hbound : ∀ i l, .branch i l ∈ ds → .label l ∈ ds) :
    a.finish = Code.checked (ds.flatMap (resolved f)) := by
  have haddress {l : String} (hl : .label l ∈ ds) : a.labels[l]? = some (f l) := by
    rw [h.labels, if_pos hl]
  have hemitted : a.emitted = ([] ++ ds.flatMap raw).toArray := by
    apply Array.toList_inj.1
    simpa using h.emitted
  obtain ⟨out, hout⟩ : ∃ out, resolve a.labels (labelled 0 ds) a.emitted = .ok out := by
    refine exists_resolve fun r hr => ?_
    obtain ⟨i, hi⟩ := exists_branch_of_mem_labelled hr
    exact ⟨_, haddress (hbound i r.2 hi)⟩
  have hcode : out.toList = ds.flatMap (resolved f) := by
    have hresolve : resolve a.labels (labelled ([] : Code).length ds)
        ([] ++ ds.flatMap raw).toArray = .ok out := hemitted ▸ hout
    rw [resolve_spec hresolve, List.nil_append]
    exact flatMap_resolved_congr fun i l hi => by rw [haddress (hbound i l hi), Option.getD_some]
  rw [finish, h.references, hout, ← hcode]
  rfl

end Assembles

end Assembler

/--
**When rejected labels are not seen.** With all labels of branches put down, finishing checks the
code with the last addresses of the labels, and with their first addresses if the rejected labels
are left out. The results are the same exactly if a label of a branch is not put down, if no branch
with targets refers to a label that has moved, or if the checks fail alike.
-/
theorem rejected_labels_unseen_iff (ds : List Directive) :
    ((∀ i l, .branch i l ∈ ds → .label l ∈ ds) →
      (Assembler.followed {} ds).finish =
        Code.checked (ds.flatMap (resolved (lastAddress ds))) ∧
      (Assembler.followed {} (Assembler.accepted {} ds)).finish =
        Code.checked (ds.flatMap (resolved (address ds)))) ∧
    ((Assembler.followed {} ds).finish =
        (Assembler.followed {} (Assembler.accepted {} ds)).finish ↔
      (∃ i l, .branch i l ∈ ds ∧ .label l ∉ ds) ∨
      (∀ i l, .branch i l ∈ ds → i.targets ≠ [] →
        (lastAddress ds l).toUInt64 = (address ds l).toUInt64) ∨
      ∃ e, Code.validate (ds.flatMap (resolved (lastAddress ds))) = .error e ∧
        Code.validate (ds.flatMap (resolved (address ds))) = .error e) := by
  have hlast := Assembler.assembles_followed ds
  have hfirst := Assembler.assembles_accepted ds
  refine ⟨fun hbound => ⟨hlast.finish_eq_checked hbound, hfirst.finish_eq_checked hbound⟩, ?_⟩
  by_cases hunbound : ∃ i l, .branch i l ∈ ds ∧ .label l ∉ ds
  · exact iff_of_true (hlast.finish_eq_of_unbound hfirst hunbound) (.inl hunbound)
  · have hbound : ∀ i l, .branch i l ∈ ds → .label l ∈ ds := by
      intro i l hi
      by_contra hl
      exact hunbound ⟨i, l, hi, hl⟩
    rw [hlast.finish_eq_checked hbound, hfirst.finish_eq_checked hbound, Code.checked_eq_iff,
      flatMap_resolved_eq_iff, or_iff_right hunbound]

namespace Detour

/-- A branch back to a label that is then put down again. -/
def directives : List Directive :=
  [.label "again", .branch (.goto 0) "again", .label "again", .emit (.return none)]

/-- **A rejected label is seen**: the branch goes to where the label was rejected. -/
theorem rejected_label_seen :
    ((Assembler.followed {} (directives.take 2)).bindLabel "again").2 =
      some (.duplicateLabel "again") ∧
    Assembler.accepted {} directives =
      [.label "again", .branch (.goto 0) "again", .emit (.return none)] ∧
    (Assembler.followed {} directives).finish = .ok [.goto 1, .return none] ∧
    (Assembler.followed {} (Assembler.accepted {} directives)).finish =
      .ok [.goto 0, .return none] :=
  ⟨rfl, rfl, rfl, rfl⟩

end Detour

end StorageWeave.Bytecode
