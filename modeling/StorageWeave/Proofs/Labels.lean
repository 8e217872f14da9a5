import StorageWeave.Proofs.Bodies

/-!
# Labels and their addresses

A label is bound to the number of instructions before it (`Directive.address`). After directives
without a repeated label, the labels are bound to their addresses and no others are bound
(`Assembler.labels_of_run`), and finishing succeeds exactly if every label of a branch is bound and
the branches stay in the code (`Assembler.finish_eq_ok_iff`). Putting a label down fails exactly if
it was put down before, also after other labels have failed (`Assembler.bindLabel_followed`).
-/

namespace StorageWeave.Bytecode

namespace Directive

variable {ds : List Directive} {l : String}

/-- The number of instructions before a label is put down. -/
def address (ds : List Directive) (l : String) : Nat :=
  ((ds.takeWhile (· ≠ .label l)).flatMap raw).length

/-- A label that stands once has the address of its place. -/
theorem address_eq {pre post : List Directive} (hds : ds = pre ++ .label l :: post)
    (hpre : .label l ∉ pre) : address ds l = (pre.flatMap raw).length := by
  have hall : ∀ d ∈ pre, (decide (d ≠ .label l)) = true := by
    intro d hd
    refine decide_eq_true ?_
    rintro rfl
    exact hpre hd
  rw [address, hds, List.takeWhile_append_of_pos hall, List.takeWhile_cons_of_neg (by simp),
    List.append_nil]

theorem address_le (ds : List Directive) (l : String) :
    address ds l ≤ (ds.flatMap raw).length := by
  obtain ⟨rest, hrest⟩ := List.takeWhile_prefix (l := ds) (· ≠ Directive.label l)
  calc address ds l
      ≤ ((ds.takeWhile (· ≠ .label l) ++ rest).flatMap raw).length := by
        rw [address, List.flatMap_append, List.length_append]
        exact Nat.le_add_right _ _
    _ = (ds.flatMap raw).length := by rw [hrest]

/-- The labels that are waited for are those of the branches. -/
theorem exists_mem_labelled {i : Instruction} (h : .branch i l ∈ ds) (n : Nat) :
    ∃ k, (k, l) ∈ labelled n ds := by
  induction ds generalizing n with
  | nil => cases h
  | cons d ds ih =>
    rcases List.mem_cons.1 h with rfl | hrest
    · exact ⟨n, List.mem_cons_self⟩
    · cases d with
      | emit _ => exact ih hrest (n + 1)
      | branch _ _ => exact (ih hrest (n + 1)).imp fun _ => List.mem_cons_of_mem _
      | label _ => exact ih hrest n

/-- Only the addresses of the labels of branches count. -/
theorem flatMap_resolved_congr {f g : String → Nat}
    (h : ∀ i l, .branch i l ∈ ds → f l = g l) :
    ds.flatMap (resolved f) = ds.flatMap (resolved g) := by
  refine List.flatMap_congr fun d hd => ?_
  cases d with
  | emit _ | label _ => rfl
  | branch i l => simp only [resolved, h i l hd]

end Directive

open Directive

namespace Assembler

variable {a b : Assembler} {ds : List Directive}

/-! ## Labels that are bound -/

/-- What directives leave behind when a label that fails is passed over. -/
def followed (a : Assembler) (ds : List Directive) : Assembler :=
  ds.foldl (fun a d => (a.step d).1) a

theorem followed_of_run (h : a.run ds = .ok b) : a.followed ds = b := by
  induction ds generalizing a with
  | nil => exact Except.ok.inj h
  | cons d ds ih =>
    rw [run] at h
    split at h
    · next hstep =>
      rw [followed, List.foldl_cons, hstep]
      exact ih h
    · cases h

/-- A step binds a label if it puts it down, and keeps the others bound. -/
theorem isSome_labels_step (a : Assembler) (d : Directive) (l : String) :
    (a.step d).1.labels[l]?.isSome = true ↔ a.labels[l]?.isSome = true ∨ d = .label l := by
  cases d with
  | emit i => simp [step, emit]
  | branch i l' => simp [step, branch]
  | label l' =>
    by_cases hl : l' = l
    · simp [step, bindLabel, hl]
    · simp [step, bindLabel, Std.TreeMap.getElem?_insert, hl]

theorem isSome_labels_followed (a : Assembler) (ds : List Directive) (l : String) :
    (a.followed ds).labels[l]?.isSome = true ↔
      a.labels[l]?.isSome = true ∨ .label l ∈ ds := by
  induction ds generalizing a with
  | nil => simp [followed]
  | cons d ds ih =>
    rw [followed, List.foldl_cons, ← followed, ih, isSome_labels_step, List.mem_cons, or_assoc,
      @eq_comm _ d]

/-- **A label fails** exactly if it was put down before. -/
theorem bindLabel_followed (ds : List Directive) (l : String) :
    ((followed {} ds).bindLabel l).2 =
      if .label l ∈ ds then some (.duplicateLabel l) else none := by
  have hbound := isSome_labels_followed {} ds l
  simp only [Std.TreeMap.getElem?_emptyc, Option.isSome_none, Bool.false_eq_true, false_or]
    at hbound
  unfold bindLabel
  split
  · next hl =>
    obtain ⟨n, hn⟩ := Option.isSome_iff_exists.1 (hbound.2 hl)
    rw [hn]
    rfl
  · next hl =>
    rw [Option.not_isSome_iff_eq_none.1 fun h => hl (hbound.1 h)]
    rfl

/-- A run that succeeds puts every label down once, and none that was bound before. -/
theorem nodup_of_run (h : a.run ds = .ok b) :
    (boundLabels ds).Nodup ∧ ∀ l ∈ boundLabels ds, a.labels[l]? = none := by
  induction ds generalizing a with
  | nil => simp
  | cons d ds ih =>
    cases d with
    | emit i => exact ih (a := a.emit i) h
    | branch i l => exact ih (a := a.branch i l) h
    | label l =>
      have hnew : a.labels[l]? = none := by
        rcases hbound : a.labels[l]? with _ | n
        · rfl
        · simp [run, step, bindLabel, hbound] at h
      obtain ⟨hnodup, hrest⟩ := ih (a := (a.bindLabel l).1) (by
        simpa [run, step, bindLabel, hnew] using h)
      have hapart : ∀ l' ∈ boundLabels ds, l ≠ l' ∧ a.labels[l']? = none := by
        intro l' hl'
        have hl := hrest l' hl'
        by_cases hne : l = l'
        · simp [bindLabel, hne] at hl
        · exact ⟨hne, by simpa [bindLabel, Std.TreeMap.getElem?_insert, hne] using hl⟩
      rw [boundLabels_label]
      refine ⟨List.nodup_cons.2 ⟨fun hl => (hapart l hl).1 rfl, hnodup⟩, ?_⟩
      exact List.forall_mem_cons.2 ⟨hnew, fun l' hl' => (hapart l' hl').2⟩

/-- **No label fails** exactly if none is put down twice. -/
theorem run_eq_ok_iff :
    ({} : Assembler).run ds = .ok b ↔ (boundLabels ds).Nodup ∧ followed {} ds = b := by
  constructor
  · exact fun h => ⟨(nodup_of_run h).1, followed_of_run h⟩
  · rintro ⟨hnodup, rfl⟩
    obtain ⟨b, hb⟩ := exists_run hnodup (a := {}) (by simp)
    rw [hb, followed_of_run hb]

/-- **The bound labels** are those that were put down, at their addresses. -/
theorem labels_of_run (h : ({} : Assembler).run ds = .ok b) (l : String) :
    b.labels[l]? = if .label l ∈ ds then some (address ds l) else none := by
  split
  · next hl =>
    obtain ⟨pre, post, hds, hpre⟩ := List.eq_append_cons_of_mem hl
    obtain ⟨-, -, -, haddress⟩ := run_spec h
    rw [haddress pre l post hds, address_eq hds hpre]
    exact congrArg some (Nat.zero_add _)
  · next hl =>
    have hbound := isSome_labels_followed {} ds l
    rw [followed_of_run h] at hbound
    refine Option.not_isSome_iff_eq_none.1 fun hsome => ?_
    rcases hbound.1 hsome with hempty | hmem
    · simp at hempty
    · exact hl hmem

/-! ## Finishing -/

/-- Resolving finds every label that is waited for. -/
theorem exists_label_of_resolve {labels : Std.TreeMap String Nat}
    {references : List (Nat × String)} {code out : Array Instruction}
    (h : resolve labels references code = .ok out) :
    ∀ r ∈ references, ∃ n, labels[r.2]? = some n := by
  induction references generalizing code with
  | nil => simp
  | cons r references ih =>
    rw [resolve] at h
    split at h
    · cases h
    · next n hn => exact List.forall_mem_cons.2 ⟨⟨n, hn⟩, ih h⟩

/-- Resolving succeeds exactly if every label of a branch is put down. -/
theorem exists_resolve_iff (h : ({} : Assembler).run ds = .ok b) :
    (∃ out, resolve b.labels b.references.reverse b.emitted = .ok out) ↔
      ∀ i l, .branch i l ∈ ds → .label l ∈ ds := by
  obtain ⟨-, hreferences, -, -⟩ := run_spec h
  replace hreferences : b.references.reverse = labelled 0 ds := hreferences
  have hbound (l : String) : (∃ n, b.labels[l]? = some n) ↔ .label l ∈ ds := by
    rw [labels_of_run h]
    split <;> simp_all
  rw [hreferences]
  constructor
  · rintro ⟨out, hout⟩ i l hi
    obtain ⟨k, hk⟩ := exists_mem_labelled hi 0
    exact (hbound l).1 (exists_label_of_resolve hout (k, l) hk)
  · intro hall
    refine exists_resolve fun r hr => ?_
    obtain ⟨i, hi⟩ := exists_branch_of_mem_labelled hr
    exact (hbound r.2).2 (hall i r.2 hi)

/-- **Finishing** succeeds exactly if every label of a branch is put down and the branches stay in
the code, and gives the instructions with the addresses of their labels. -/
theorem finish_eq_ok_iff (h : ({} : Assembler).run ds = .ok b) {code : Code} :
    b.finish = .ok code ↔
      (∀ i l, .branch i l ∈ ds → .label l ∈ ds) ∧ code = ds.flatMap (resolved (address ds)) ∧
        ∀ i ∈ code, ∀ t ∈ i.targets, t.toNat < code.length := by
  have hcode {out : Array Instruction}
      (hout : resolve b.labels b.references.reverse b.emitted = .ok out) :
      out.toList = ds.flatMap (resolved (address ds)) := by
    rw [toList_of_resolve h hout]
    refine flatMap_resolved_congr fun i l hi => ?_
    rw [labels_of_run h, if_pos ((exists_resolve_iff h).1 ⟨out, hout⟩ i l hi), Option.getD_some]
  unfold finish
  constructor
  · intro hfinish
    obtain ⟨out, hout, hfinish⟩ := Weaving.bind_eq_ok.1 hfinish
    obtain ⟨⟨⟩, hvalid, hfinish⟩ := Weaving.bind_eq_ok.1 hfinish
    cases hfinish
    exact ⟨(exists_resolve_iff h).1 ⟨out, hout⟩, hcode hout, Code.targets_of_validate hvalid⟩
  · rintro ⟨hbound, rfl, htargets⟩
    obtain ⟨out, hout⟩ := (exists_resolve_iff h).2 hbound
    rw [← hcode hout] at htargets ⊢
    refine Weaving.bind_eq_ok.2 ⟨out, hout, ?_⟩
    exact Weaving.bind_eq_ok.2 ⟨(), Code.validate_of_targets htargets, rfl⟩

end Assembler

/--
**Assembling is exact.** Putting a label down fails exactly if it was put down before, so none fails
exactly if none is put down twice. Finishing then succeeds exactly if every label of a branch is put
down and every target, of a label or not, is less than the number of instructions. The code has the
instructions in order, and the targets of a branch with a label are the number of instructions
before the label.
-/
theorem assembling_exact (ds : List Directive) :
    (∀ l, ((Assembler.followed {} ds).bindLabel l).2 =
      if .label l ∈ ds then some (.duplicateLabel l) else none) ∧
    ((∃ a, ({} : Assembler).run ds = .ok a) ↔ (boundLabels ds).Nodup) ∧
    ∀ a, ({} : Assembler).run ds = .ok a →
      ((∃ code, a.finish = .ok code) ↔
        (∀ i l, .branch i l ∈ ds → .label l ∈ ds) ∧
          ∀ i ∈ ds.flatMap (resolved (address ds)), ∀ t ∈ i.targets,
            t.toNat < (ds.flatMap raw).length) ∧
      ∀ code, a.finish = .ok code →
        code = ds.flatMap (resolved (address ds)) ∧
        ((ds.flatMap raw).length < Code.targetBound → ∀ i l, .branch i l ∈ ds →
          ∀ j ∈ resolved (address ds) (.branch i l), ∀ t ∈ j.targets,
            t.toNat = address ds l) := by
  refine ⟨Assembler.bindLabel_followed ds, ?_, fun a hrun => ⟨?_, fun code hcode => ?_⟩⟩
  · simp only [Assembler.run_eq_ok_iff, exists_and_left, exists_eq', and_true]
  · simp only [Assembler.finish_eq_ok_iff hrun, exists_and_left, exists_eq_left,
      length_flatMap_resolved]
  · refine ⟨((Assembler.finish_eq_ok_iff hrun).1 hcode).2.1, ?_⟩
    intro hsmall i l _ j hj t ht
    rw [List.mem_singleton.1 hj, Instruction.targets_mapTargets] at ht
    obtain ⟨-, -, rfl⟩ := List.mem_map.1 ht
    exact Code.toNat_toUInt64 (Nat.lt_of_le_of_lt (address_le ds l) hsmall)

namespace Rounds

/-- Branches forward and back, a computed jump, and an instruction without targets with a label. -/
def directives : List Directive :=
  [.label "again", .emit (.load .int 1), .branch (.branchIf .eq 0) "done",
    .branch (.switch [7, 8] 9) "again", .branch .dup "done", .emit (.goto 1), .label "done",
    .emit (.return none)]

/-- The labels are the numbers of instructions before them, and neither can be put down again. -/
theorem directives_assembled : ∃ a, ({} : Assembler).run directives = .ok a ∧
    a.finish = .ok [.load .int 1, .branchIf .eq 5, .switch [0, 0] 0, .dup, .goto 1,
      .return none] ∧
    ((Assembler.followed {} directives).bindLabel "done").2 = some (.duplicateLabel "done") := by
  obtain ⟨hlabel, hruns, hfinish⟩ := assembling_exact directives
  obtain ⟨a, hrun⟩ := hruns.2 (by decide)
  obtain ⟨hok, hcode⟩ := hfinish a hrun
  have hbound : ∀ i l, .branch i l ∈ directives → .label l ∈ directives := by
    intro i l hi
    obtain ⟨-, rfl⟩ | ⟨-, rfl⟩ | ⟨-, rfl⟩ : i = .branchIf .eq 0 ∧ l = "done" ∨
        i = .switch [7, 8] 9 ∧ l = "again" ∨ i = .dup ∧ l = "done" := by
      simpa [directives] using hi
    all_goals decide
  have hresolved : directives.flatMap (resolved (address directives)) =
      [.load .int 1, .branchIf .eq 5, .switch [0, 0] 0, .dup, .goto 1, .return none] := rfl
  obtain ⟨code, ha⟩ := hok.2 ⟨hbound, by
    rw [hresolved]
    simp [Instruction.targets, directives, raw]⟩
  refine ⟨a, hrun, ?_, (hlabel "done").trans (by decide)⟩
  rw [ha, (hcode code ha).1, hresolved]

end Rounds

end StorageWeave.Bytecode
