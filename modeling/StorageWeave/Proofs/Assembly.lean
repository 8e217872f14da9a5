import StorageWeave.Bytecode.Assembler

/-!
# What assembling gives

The code of a list of directives is the list of their instructions, where the targets of a branch
with a label are the number of instructions before the label (`assemble_spec`).
-/

namespace StorageWeave.Bytecode

namespace Directive

/-- The instruction that a directive emits, before its label is known. -/
def raw : Directive → Code
  | .emit i => [i]
  | .branch i _ => [i]
  | .label _ => []

/-- The instruction that a directive stands for when labels have addresses. -/
def resolved (address : String → Nat) : Directive → Code
  | .emit i => [i]
  | .branch i l => [i.mapTargets fun _ => (address l).toUInt64]
  | .label _ => []

/-- The branches with a label, with their positions from `n` on. -/
def labelled : Nat → List Directive → List (Nat × String)
  | _, [] => []
  | n, .emit _ :: ds => labelled (n + 1) ds
  | n, .branch _ l :: ds => (n, l) :: labelled (n + 1) ds
  | n, .label _ :: ds => labelled n ds

theorem length_flatMap_resolved (address : String → Nat) (ds : List Directive) :
    (ds.flatMap (resolved address)).length = (ds.flatMap raw).length := by
  induction ds with
  | nil => rfl
  | cons d ds ih => cases d <;> simp [resolved, raw, ih]

theorem flatMap_resolved_emit (address : String → Nat) (is : Code) :
    (is.map Directive.emit).flatMap (resolved address) = is := by
  induction is with
  | nil => rfl
  | cons i is ih => simpa [resolved] using ih

end Directive

open Directive

namespace Assembler

/-- The labels behind a directive that is none itself are bound behind its instructions. -/
theorem bound_cons {labels : Std.TreeMap String Nat} {d : Directive} {ds : List Directive}
    {m n : Nat} (hd : ∀ l, d ≠ .label l) (hm : m = n + (raw d).length)
    (h : ∀ pre l post, ds = pre ++ .label l :: post →
      labels[l]? = some (m + (pre.flatMap raw).length)) :
    ∀ pre l post, d :: ds = pre ++ .label l :: post →
      labels[l]? = some (n + (pre.flatMap raw).length) := by
  intro pre l post hsplit
  rcases pre with _ | ⟨d', pre⟩
  · exact absurd (List.cons.inj hsplit).1 (hd l)
  · obtain ⟨rfl, hrest⟩ := List.cons.inj hsplit
    rw [h pre l post hrest, hm, List.flatMap_cons, List.length_append, Nat.add_assoc]

/-- Following directives emits their instructions, notes the branches with a label, and binds every
label to the number of instructions before it. -/
theorem run_spec {ds : List Directive} {a b : Assembler} (h : a.run ds = .ok b) :
    b.emitted.toList = a.emitted.toList ++ ds.flatMap raw ∧
      b.references.reverse = a.references.reverse ++ labelled a.position ds ∧
      (∀ (l : String) n, a.labels[l]? = some n → b.labels[l]? = some n) ∧
      ∀ pre l post, ds = pre ++ .label l :: post →
        b.labels[l]? = some (a.position + (pre.flatMap raw).length) := by
  induction ds generalizing a with
  | nil =>
    cases h
    simp [labelled]
  | cons d ds ih =>
    cases d with
    | emit i =>
      obtain ⟨he, hr, hk, hl⟩ := ih (a := a.emit i) h
      have hpos : (a.emit i).position = a.position + 1 := by simp [emit, position]
      rw [hpos] at hr
      exact ⟨by simpa [emit, raw] using he, by simpa [emit, labelled] using hr, hk,
        bound_cons (by simp) hpos hl⟩
    | branch i label =>
      obtain ⟨he, hr, hk, hl⟩ := ih (a := a.branch i label) h
      have hpos : (a.branch i label).position = a.position + 1 := by simp [branch, position]
      refine ⟨by simpa [branch, raw] using he, ?_, hk, bound_cons (by simp) hpos hl⟩
      simpa [branch, labelled, hpos, position] using hr
    | label name =>
      -- a label that was bound before is an error, so earlier labels keep their addresses
      have hnew : a.labels[name]? = none := by
        rcases hbound : a.labels[name]? with _ | n
        · rfl
        · simp [run, step, bindLabel, hbound] at h
      have h' : (a.bindLabel name).1.run ds = .ok b := by
        simpa [run, step, bindLabel, hnew] using h
      obtain ⟨he, hr, hk, hl⟩ := ih h'
      have hpos : (a.bindLabel name).1.position = a.position := rfl
      rw [hpos] at hr
      have hself : (a.bindLabel name).1.labels[name]? = some a.position := by
        simp [bindLabel]
      refine ⟨by simpa [bindLabel, raw] using he, by simpa [bindLabel, labelled] using hr, ?_, ?_⟩
      · intro l n hln
        refine hk l n ?_
        have hne : name ≠ l := by
          rintro rfl
          rw [hnew] at hln
          cases hln
        simpa [bindLabel, Std.TreeMap.getElem?_insert, hne] using hln
      · intro pre l post hsplit
        rcases pre with _ | ⟨d, pre⟩
        · obtain ⟨hd, -⟩ := List.cons.inj hsplit
          cases hd
          exact hk _ _ hself
        · obtain ⟨rfl, hrest⟩ := List.cons.inj hsplit
          rw [hl pre l post hrest, hpos]
          simp [raw]

/-- Resolving patches every branch with a label, and nothing else. -/
theorem resolve_spec {labels : Std.TreeMap String Nat} {ds : List Directive} {pre : Code}
    {code : Array Instruction}
    (h : resolve labels (labelled pre.length ds) (pre ++ ds.flatMap raw).toArray = .ok code) :
    code.toList = pre ++ ds.flatMap (resolved fun l => labels[l]?.getD 0) := by
  induction ds generalizing pre with
  | nil =>
    cases h
    simp
  | cons d ds ih =>
    cases d with
    | emit i =>
      have hrest : resolve labels (labelled (pre ++ [i]).length ds)
          ((pre ++ [i]) ++ ds.flatMap raw).toArray = .ok code := by
        simpa [labelled, raw] using h
      simpa [resolved] using ih hrest
    | label name => simpa [resolved] using ih (by simpa [labelled, raw] using h)
    | branch i l =>
      simp only [labelled, resolve] at h
      rcases hl : labels[l]? with _ | address
      · simp [hl] at h
      · have hmod : ((pre ++ (Directive.branch i l :: ds).flatMap raw).toArray.modify pre.length
            (Instruction.mapTargets fun _ => address.toUInt64)) =
            (pre ++ [i.mapTargets fun _ => address.toUInt64] ++ ds.flatMap raw).toArray := by
          simp [raw, List.modify_eq_take_drop]
        rw [hl] at h
        simp only [hmod] at h
        have hrest : resolve labels
            (labelled (pre ++ [i.mapTargets fun _ => address.toUInt64]).length ds)
            ((pre ++ [i.mapTargets fun _ => address.toUInt64]) ++ ds.flatMap raw).toArray =
              .ok code := by
          simpa using h
        simpa [resolved, hl] using ih hrest

/-- What resolving makes of the code of directives. -/
theorem toList_of_resolve {ds : List Directive} {b : Assembler} {code : Array Instruction}
    (hrun : ({} : Assembler).run ds = .ok b)
    (h : resolve b.labels b.references.reverse b.emitted = .ok code) :
    code.toList = ds.flatMap (resolved fun l => b.labels[l]?.getD 0) := by
  obtain ⟨he, hr, -, -⟩ := run_spec hrun
  have hemitted : b.emitted = ([] ++ ds.flatMap raw).toArray := by
    apply Array.toList_inj.1
    simpa using he
  have hrefs : b.references.reverse = labelled ([] : Code).length ds := by
    simpa [position] using hr
  rw [hemitted, hrefs] at h
  rw [resolve_spec h, List.nil_append]

end Assembler

/-- **Assembled code** is the list of the instructions, and a label is the number of instructions
before it. -/
theorem assemble_spec {ds : List Directive} {code : Code} (h : assemble ds = .ok code) :
    ∃ address : String → Nat, code = ds.flatMap (resolved address) ∧
      ∀ pre l post, ds = pre ++ .label l :: post →
        address l = (pre.flatMap (resolved address)).length := by
  rcases hrun : ({} : Assembler).run ds with e | b
  · simp [assemble, hrun, bind, Except.bind] at h
  · obtain ⟨-, -, -, hl⟩ := Assembler.run_spec hrun
    rcases hres : Assembler.resolve b.labels b.references.reverse b.emitted with e | out
    · simp [assemble, hrun, Assembler.finish, hres, bind, Except.bind] at h
    · have hcode : code = out.toList := by
        simp only [assemble, hrun, Assembler.finish, hres, bind, Except.bind, pure,
          Except.pure] at h
        split at h
        · cases h
        · cases h; rfl
      refine ⟨fun l => b.labels[l]?.getD 0, ?_, ?_⟩
      · rw [hcode, Assembler.toList_of_resolve hrun hres]
      · intro pre l post hsplit
        simp only [hl pre l post hsplit, length_flatMap_resolved]
        simp [Assembler.position]

end StorageWeave.Bytecode
