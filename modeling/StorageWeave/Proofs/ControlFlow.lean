import StorageWeave.Proofs.Relocation

/-!
# The control flow of spliced code

Control leaves an instruction by falling through to the next one or by a branch to one of its
targets (`Instruction.continues_iff`). Splicing a block into code keeps these ways between the
instructions (`Code.KeepsFlow`): they lead from where an instruction has gone to where the next one
has gone. Only what falls into the position, and the branches to it if they are redirected, come to
the block first, and pass through it. A block can be spliced in exactly if all targets stay words
(`Code.insert?_keepsFlow`); the longest branch cannot move on (`Ends.insert?_fails`).
-/

namespace StorageWeave.Bytecode

/-! ## Ways out of an instruction -/

namespace Control

/-- Whether control can go on to the next instruction. -/
def fallsThrough : Control → Bool
  | .fallThrough => true
  | .branch _ => true
  | _ => false

/-- The targets that control can go to. -/
def targets : Control → List Target
  | .jump t => [t]
  | .branch t => [t]
  | .indirect ts => ts
  | _ => []

end Control

namespace Instruction

theorem targets_control (i : Instruction) : i.control.targets = i.targets := by
  cases i <;> rfl

theorem fallsThrough_mapTargets (τ : Target → Target) (i : Instruction) :
    (i.mapTargets τ).control.fallsThrough = i.control.fallsThrough := by
  cases i <;> rfl

theorem continues_iff {i : Instruction} {b b' : Nat} :
    i.Continues b b' ↔
      i.control.fallsThrough = true ∧ b' = b + 1 ∨ ∃ t ∈ i.control.targets, b' = t.toNat := by
  unfold Continues
  cases i.control <;> simp [Control.fallsThrough, Control.targets, or_comm]

end Instruction

namespace Code

/-- Control falls through from a position to the next one. -/
def Falls (code : Code) (b b' : Nat) : Prop :=
  ∃ i, code[b]? = some i ∧ i.control.fallsThrough = true ∧ b' = b + 1

/-- Control branches from a position to another one. -/
def Branches (code : Code) (b b' : Nat) : Prop :=
  ∃ i, code[b]? = some i ∧ ∃ t ∈ i.control.targets, b' = t.toNat

/-- Control goes from a position to another one. -/
def Edge (code : Code) (b b' : Nat) : Prop :=
  ∃ i, code[b]? = some i ∧ i.Continues b b'

variable {code block code' : Code} {position length : Nat} {redirect : Bool}

theorem edge_iff {b b' : Nat} : code.Edge b b' ↔ code.Falls b b' ∨ code.Branches b b' := by
  simp only [Edge, Falls, Branches, Instruction.continues_iff, and_or_left, exists_or]

/-! ## Where targets go -/

/--
Where a way to a position leads in spliced code: to where its instruction stands, or to the block
before it if it is a redirected way to the position of the block.
-/
def arrival (position length : Nat) (redirect : Bool) (t : Nat) : Nat :=
  if redirect = true ∧ t = position then position else spliced position length t

theorem add_spliceDistance (t : Target) :
    t.toNat + spliceDistance position length redirect t =
      arrival position length redirect t.toNat := by
  unfold spliceDistance arrival spliced
  cases redirect <;> grind

theorem arrival_le (t : Nat) : arrival position length redirect t ≤ t + length := by
  unfold arrival spliced
  grind

/-- A way to a position leads to where its instruction stands, or to the block. -/
theorem arrival_cases (position length : Nat) (redirect : Bool) (t : Nat) :
    arrival position length redirect t = spliced position length t ∨
      t = position ∧ arrival position length redirect t = position := by
  unfold arrival
  split
  · next hredirect => exact .inr ⟨hredirect.2, rfl⟩
  · exact .inl rfl

/-- What comes to an instruction, or to the block before it, was on its way to that instruction. -/
theorem eq_of_arrival {t n : Nat}
    (h : spliced position length n = arrival position length redirect t ∨
      n = position ∧ position = arrival position length redirect t) : t = n := by
  unfold arrival spliced at h
  grind

/-- The next instruction stands behind an instruction, or the block does. -/
theorem arrival_succ (b : Nat) :
    arrival position length true (b + 1) = spliced position length b + 1 := by
  unfold arrival spliced
  grind

/-- The instruction, with its targets moved along with the code around a block. -/
def around (position length : Nat) (redirect : Bool) (i : Instruction) : Instruction :=
  i.mapTargets fun t => (arrival position length redirect t.toNat).toUInt64

theorem moved_spliceDistance (code : Code) :
    code.moved (spliceDistance position length redirect) =
      code.map (around position length redirect) := by
  refine List.map_congr_left fun i _ => Instruction.mapTargets_congr fun t _ => ?_
  rw [← add_spliceDistance, Nat.toUInt64_eq, Nat.toUInt64_eq, UInt64.ofNat_add,
    UInt64.ofNat_toNat]

/-- Nothing moves around an empty block. -/
theorem arrival_zero (t : Nat) : arrival position 0 redirect t = t := by
  unfold arrival spliced
  grind

theorem map_around_zero (code : Code) : code.map (around position 0 redirect) = code := by
  rw [← moved_spliceDistance]
  exact moved_eq_self fun t => by simp [spliceDistance]

/-- **A block can be spliced in** exactly if all targets stay words. -/
theorem insert?_eq_some_iff (hposition : position ≤ code.length) :
    insert? code position block redirect = some code' ↔
      (∀ i ∈ code, ∀ t ∈ i.targets,
        arrival position block.length redirect t.toNat < targetBound) ∧
      code' = (code.take position).map (around position block.length redirect) ++ block ++
        (code.drop position).map (around position block.length redirect) := by
  rw [@eq_comm _ code']
  by_cases hblock : block = []
  · subst hblock
    have hfits : ∀ i ∈ code, ∀ t ∈ i.targets, arrival position 0 redirect t.toNat < targetBound :=
      fun _ _ t _ => by rw [arrival_zero]; exact t.toNat_lt
    simp only [insert?, List.isEmpty_nil, if_true, List.length_nil, map_around_zero,
      List.append_nil, List.take_append_drop, Option.some.injEq, and_iff_right hfits]
  · simp only [insert?, List.isEmpty_iff, hblock, if_false, hposition, if_true,
      Option.bind_eq_bind, Option.bind_eq_some_iff, moveTargets?_eq_some_iff, Movable,
      add_spliceDistance, moved_spliceDistance, Option.pure_def, Option.some.injEq, and_assoc,
      exists_and_left, exists_eq_left', List.map_take, List.map_drop]

/-! ## The ways of spliced code -/

/--
`code'` is `code` with a block before a position: its instructions keep their order and their
targets move along, and control goes between them as before, but for the ways that come to the
block first.
-/
structure KeepsFlow (code : Code) (position : Nat) (block : Code) (redirect : Bool)
    (code' : Code) : Prop where
  instructions : code' =
    (code.take position).map (around position block.length redirect) ++ block ++
      (code.drop position).map (around position block.length redirect)
  /-- A target has become the place that a branch to it leads to. -/
  targets : ∀ i ∈ code, (around position block.length redirect i).targets.map UInt64.toNat =
    i.targets.map fun t => arrival position block.length redirect t.toNat
  /-- A branch leads to where its target has gone, or to the block if it is redirected. -/
  branches : ∀ b n, code'.Branches (spliced position block.length b) n ↔
    ∃ b', code.Branches b b' ∧ n = arrival position block.length redirect b'
  /-- What falls through comes to the next instruction, or to the block if that stood there. -/
  falls : ∀ b n, code'.Falls (spliced position block.length b) n ↔
    ∃ b', code.Falls b b' ∧ n = arrival position block.length true b'
  /-- The block is left by falling through it. -/
  within : ∀ k n, k < block.length → (code'.Edge (position + k) n ↔
    block.Falls k (k + 1) ∧ n = position + k + 1)
  validate : code.validate = .ok () → code'.validate = .ok ()

theorem getElem?_around {f : Instruction → Instruction} (hposition : position ≤ code.length)
    (b : Nat) :
    ((code.take position).map f ++ block ++ (code.drop position).map f)[
      spliced position block.length b]? = (code[b]?).map f := by
  rw [List.map_take, List.map_drop, ← List.getElem?_map]
  exact getElem?_spliced (by simpa using hposition) b

theorem getElem?_block {f : Instruction → Instruction} (hposition : position ≤ code.length)
    {k : Nat} (hk : k < block.length) :
    ((code.take position).map f ++ block ++ (code.drop position).map f)[position + k]? =
      block[k]? := by
  have hlength : ((code.take position).map f).length = position := by simp [hposition]
  rw [List.append_assoc, List.getElem?_append_right (by omega), hlength, Nat.add_sub_cancel_left,
    List.getElem?_append_left hk]

/-- The branches of moved instructions lead to where their targets have gone. -/
theorem branches_iff_of_getElem? {f : Instruction → Instruction} {μ : Nat → Nat} {b b₁ n : Nat}
    (hget : code'[b₁]? = (code[b]?).map f)
    (htargets : ∀ i ∈ code, (f i).targets.map UInt64.toNat = i.targets.map fun t => μ t.toNat) :
    code'.Branches b₁ n ↔ ∃ b', code.Branches b b' ∧ n = μ b' := by
  unfold Branches
  rcases hb : code[b]? with _ | i
  · simp [hget, hb]
  · have hmem : (∃ t ∈ (f i).targets, n = t.toNat) ↔ ∃ t ∈ i.targets, n = μ t.toNat := by
      have heq := htargets i (List.mem_of_getElem? hb)
      have hn := congrArg (n ∈ ·) heq
      simpa only [List.mem_map, eq_iff_iff, @eq_comm _ n] using hn
    rw [hget, hb]
    simp only [Option.map_some, Option.some.injEq, exists_eq_left', Instruction.targets_control,
      hmem]
    constructor
    · rintro ⟨t, ht, rfl⟩
      exact ⟨_, ⟨t, ht, rfl⟩, rfl⟩
    · rintro ⟨_, ⟨t, ht, rfl⟩, rfl⟩
      exact ⟨t, ht, rfl⟩

/-- **Splicing keeps the control flow.** -/
theorem keepsFlow_of_insert? (hposition : position ≤ code.length)
    (hblock : ∀ i ∈ block, i.targets = [])
    (h : insert? code position block redirect = some code') :
    KeepsFlow code position block redirect code' := by
  obtain ⟨hfits, hcode'⟩ := (insert?_eq_some_iff hposition).1 h
  have htargets (i : Instruction) (hi : i ∈ code) :
      (around position block.length redirect i).targets.map UInt64.toNat =
        i.targets.map fun t => arrival position block.length redirect t.toNat := by
    rw [around, Instruction.targets_mapTargets, List.map_map]
    exact List.map_congr_left fun t ht => toNat_toUInt64 (hfits i hi t ht)
  have hget (b : Nat) : code'[spliced position block.length b]? =
      (code[b]?).map (around position block.length redirect) := by
    rw [hcode']
    exact getElem?_around hposition b
  refine ⟨hcode', htargets, fun b n => branches_iff_of_getElem? (hget b) htargets, fun b n => ?_,
    fun k n hk => ?_, fun hvalid => validate_of_targets fun i hi t ht => ?_⟩
  · -- only what falls to the next position comes to a place of `arrival`
    rcases hb : code[b]? with _ | i
    · simp [Falls, hget, hb]
    · simp [Falls, hget, hb, around, Instruction.fallsThrough_mapTargets, arrival_succ]
  · have hi := List.getElem?_eq_getElem hk
    have hplain : (block[k]).control.targets = [] := by
      rw [Instruction.targets_control]
      exact hblock _ (List.getElem_mem hk)
    rw [hcode', Edge, getElem?_block hposition hk]
    simp [hi, Instruction.continues_iff, hplain, Falls]
  · have hlength : code'.length = code.length + block.length := by
      rw [hcode']
      simp only [List.length_append, List.length_map, List.length_take, List.length_drop]
      omega
    have hi' : i ∈ block ∨ ∃ i₀ ∈ code, around position block.length redirect i₀ = i := by
      rw [hcode', List.mem_append, List.mem_append, List.mem_map, List.mem_map] at hi
      obtain (⟨i₀, hi₀, rfl⟩ | hi) | ⟨i₀, hi₀, rfl⟩ := hi
      · exact .inr ⟨i₀, List.mem_of_mem_take hi₀, rfl⟩
      · exact .inl hi
      · exact .inr ⟨i₀, List.mem_of_mem_drop hi₀, rfl⟩
    obtain hi | ⟨i₀, hi₀, rfl⟩ := hi'
    · rw [hblock i hi] at ht
      cases ht
    · have hmem := List.mem_map_of_mem (f := UInt64.toNat) ht
      rw [htargets i₀ hi₀] at hmem
      obtain ⟨t₀, ht₀, hteq⟩ := List.mem_map.1 hmem
      have hlt := targets_of_validate hvalid i₀ hi₀ t₀ ht₀
      have hle := @arrival_le position block.length redirect t₀.toNat
      omega

namespace KeepsFlow

variable {b b' : Nat}

/-- **The ways of the code** are those between its instructions, and those to the position that come
to the block first. -/
theorem edge_iff (h : KeepsFlow code position block redirect code') : code.Edge b b' ↔
    code'.Edge (spliced position block.length b) (spliced position block.length b') ∨
      b' = position ∧ code'.Edge (spliced position block.length b) position := by
  rw [Code.edge_iff, Code.edge_iff, Code.edge_iff, h.falls, h.falls, h.branches, h.branches]
  constructor
  · rintro (hfalls | hbranches)
    · obtain heq | ⟨hb', heq⟩ := arrival_cases position block.length true b'
      · exact .inl (.inl ⟨b', hfalls, heq.symm⟩)
      · exact .inr ⟨hb', .inl ⟨b', hfalls, heq.symm⟩⟩
    · obtain heq | ⟨hb', heq⟩ := arrival_cases position block.length redirect b'
      · exact .inl (.inr ⟨b', hbranches, heq.symm⟩)
      · exact .inr ⟨hb', .inr ⟨b', hbranches, heq.symm⟩⟩
  · rintro ((⟨n, hway, hn⟩ | ⟨n, hway, hn⟩) | ⟨hb', ⟨n, hway, hn⟩ | ⟨n, hway, hn⟩⟩)
    · exact .inl (eq_of_arrival (.inl hn) ▸ hway)
    · exact .inr (eq_of_arrival (.inl hn) ▸ hway)
    · exact .inl (eq_of_arrival (.inr ⟨hb', hn⟩) ▸ hway)
    · exact .inr (eq_of_arrival (.inr ⟨hb', hn⟩) ▸ hway)

/-- A block that falls through is passed from its first instruction to its end. -/
theorem edge_block_iff (h : KeepsFlow code position block redirect code')
    (hblock : ∀ i ∈ block, i.control = .fallThrough) {n n' : Nat} (hle : position ≤ n)
    (hlt : n < position + block.length) : code'.Edge n n' ↔ n' = n + 1 := by
  obtain ⟨k, rfl⟩ := Nat.exists_eq_add_of_le hle
  have hk : k < block.length := by omega
  have hfalls : block.Falls k (k + 1) := by
    refine ⟨block[k], List.getElem?_eq_getElem hk, ?_, rfl⟩
    rw [hblock _ (List.getElem_mem hk)]
    rfl
  rw [h.within k n' hk, and_iff_right hfalls]

end KeepsFlow

/-- Valid code can be spliced as long as its positions are words. -/
theorem arrival_lt_of_validate (hvalid : code.validate = .ok ())
    (hlength : code.length + block.length ≤ targetBound) :
    ∀ i ∈ code, ∀ t ∈ i.targets, arrival position block.length redirect t.toNat < targetBound := by
  intro i hi t ht
  have hlt := targets_of_validate hvalid i hi t ht
  have hle := @arrival_le position block.length redirect t.toNat
  omega

/--
**Splicing preserves control flow.** A block without targets can be spliced in before a position of
the code exactly if every target stays a word where it moves, so always into valid code. The
instructions keep their order, with every target moved along, and the block stands between them.
Control goes from one instruction to another as it did, but what falls into the position, and the
branches to it if they are redirected, come to the block first and pass through all of it, unless an
instruction of the block leaves the method. Valid code stays valid.
-/
theorem insert?_keepsFlow (hposition : position ≤ code.length)
    (hblock : ∀ i ∈ block, i.targets = []) :
    ((∃ code', insert? code position block redirect = some code') ↔
      ∀ i ∈ code, ∀ t ∈ i.targets,
        arrival position block.length redirect t.toNat < targetBound) ∧
    (code.validate = .ok () → code.length + block.length ≤ targetBound →
      ∃ code', insert? code position block redirect = some code') ∧
    ∀ code', insert? code position block redirect = some code' →
      KeepsFlow code position block redirect code' ∧
      (∀ b b', code.Edge b b' ↔
        code'.Edge (spliced position block.length b) (spliced position block.length b') ∨
          b' = position ∧ code'.Edge (spliced position block.length b) position) ∧
      ((∀ i ∈ block, i.control = .fallThrough) → ∀ n n', position ≤ n →
        n < position + block.length → (code'.Edge n n' ↔ n' = n + 1)) := by
  have hfits : (∃ code', insert? code position block redirect = some code') ↔
      ∀ i ∈ code, ∀ t ∈ i.targets,
        arrival position block.length redirect t.toNat < targetBound := by
    simp only [insert?_eq_some_iff hposition, exists_and_left, exists_eq, and_true]
  refine ⟨hfits, fun hvalid hlength => hfits.2 (arrival_lt_of_validate hvalid hlength), ?_⟩
  intro code' h
  have hflow := keepsFlow_of_insert? hposition hblock h
  exact ⟨hflow, fun b b' => hflow.edge_iff, fun hfalls n n' => hflow.edge_block_iff hfalls⟩

namespace Ends

/-- A loop with branches to its start, past it and out of it. -/
def loop : Code :=
  [.load .int 1, .branchIf .eq 3, .switch [0, 1] 1, .return none]

/-- A block before the second instruction is passed by what falls there and, if the branches are
redirected, by them. -/
theorem loop_keepsFlow :
    ∃ code', insert? loop 1 [.dup, .pop] true = some code' ∧
      code' = [.load .int 1, .dup, .pop, .branchIf .eq 5, .switch [0, 1] 1, .return none] ∧
      code'.Falls 0 1 ∧ code'.Branches 4 1 ∧ (∀ n, code'.Edge 1 n ↔ n = 2) ∧
      (∀ n, code'.Edge 2 n ↔ n = 3) ∧ code'.validate = .ok () := by
  obtain ⟨hfits, -, hflow⟩ := @insert?_keepsFlow loop [.dup, .pop] 1 true (by decide) (by decide)
  obtain ⟨code', hcode'⟩ := hfits.2 (by
    simp [loop, Instruction.targets, arrival, spliced, targetBound])
  obtain ⟨hkeeps, -, hpass⟩ := hflow code' hcode'
  have hblock : ∀ i ∈ ([.dup, .pop] : Code), i.control = .fallThrough := by decide
  refine ⟨code', hcode', hkeeps.instructions, ?_, ?_, fun n => ?_, fun n => ?_, ?_⟩
  · exact (hkeeps.falls 0 1).2 ⟨1, ⟨_, rfl, rfl, rfl⟩, rfl⟩
  · exact (hkeeps.branches 2 1).2 ⟨1, ⟨_, rfl, 1, by decide, rfl⟩, rfl⟩
  · exact hpass hblock 1 n (by decide) (by decide)
  · exact hpass hblock 2 n (by decide) (by decide)
  · exact hkeeps.validate rfl

/-- **The longest branch cannot move on**, so there is code that no block can be spliced in before;
and a block that returns is not passed. -/
theorem insert?_fails :
    insert? [.goto 0xFFFFFFFFFFFFFFFF, .dup] 0 [.pop] false = none ∧
    insert? [.dup, .pop] 1 [.return none] false = some [.dup, .return none, .pop] ∧
    ∀ n, ¬ Edge [.dup, .return none, .pop] 1 n := by
  refine ⟨by decide, by decide, ?_⟩
  rintro n ⟨i, hi, hcontinues⟩
  cases hi
  exact hcontinues

end Ends

end Code

end StorageWeave.Bytecode
