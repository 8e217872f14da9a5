import StorageWeave.Proofs.Frames

/-!
# Spliced code

`Splices τ code position block code'` says that `code'` is `code` with a block put in before a
position and the branch targets moved by `τ`. A branch to the position goes past the block, so the
block is only entered from the instruction before it. A block at the front is entered once: behind
it, an activation of the spliced code goes step for step with one of the code itself
(`Beside.after`).
-/

namespace StorageWeave

/-! ## Moved targets -/

namespace Bytecode.Instruction

variable {τ : Target → Target} {i : Instruction}

theorem storedSlots_mapTargets : (i.mapTargets τ).storedSlots = i.storedSlots := by
  cases i <;> rfl

theorem stackEffect_mapTargets : (i.mapTargets τ).stackEffect = i.stackEffect := by
  cases i <;> rfl

theorem exit_of_mapTargets (h : (i.mapTargets τ).control = .exit) : i.control = .exit := by
  cases i with
  | «return» _ | throw => rfl
  | _ => cases h

/-- An instruction with moved targets goes on to the next position, if the instruction does so
wherever it stands, or to a moved target. -/
theorem continues_mapTargets {n n' : Nat} (h : (i.mapTargets τ).Continues n n') (b : Nat) :
    n' = n + 1 ∧ i.Continues b (b + 1) ∨
      ∃ t ∈ i.targets, n' = (τ t).toNat ∧ i.Continues b t.toNat := by
  cases i with
  | goto t => exact .inr ⟨t, List.mem_cons_self, h, rfl⟩
  | branchIf _ t | branchIfCompare _ _ t | branchIfNull _ t =>
    rcases h with h | h
    · exact .inr ⟨t, List.mem_cons_self, h, .inl rfl⟩
    · exact .inl ⟨h, .inr rfl⟩
  | switch targets default =>
    obtain ⟨t', ht', rfl⟩ := h
    rw [show targets.map τ ++ [τ default] = (targets ++ [default]).map τ by simp,
      List.mem_map] at ht'
    obtain ⟨t, ht, rfl⟩ := ht'
    exact .inr ⟨t, ht, rfl, t, ht, rfl⟩
  | «return» _ | throw => exact absurd h id
  | _ => exact .inl ⟨h, rfl⟩

/-- An instruction with moved targets goes to where the ones it went to have moved. -/
theorem exists_continues {μ : Nat → Nat} {b n : Nat} (hτ : ∀ t ∈ i.targets, (τ t).toNat = μ t.toNat)
    (hnext : μ (b + 1) = μ b + 1) (h : (i.mapTargets τ).Continues (μ b) n) :
    ∃ b', i.Continues b b' ∧ n = μ b' := by
  obtain ⟨rfl, hcontinues⟩ | ⟨t, ht, rfl, hcontinues⟩ := continues_mapTargets h b
  · exact ⟨b + 1, hcontinues, hnext.symm⟩
  · exact ⟨t.toNat, hcontinues, hτ t ht⟩

end Bytecode.Instruction

/-! ## Blocks put in -/

namespace Bytecode.Code

/-- Where the instruction of a position stands after a block has been put in. -/
def spliced (position length b : Nat) : Nat := if b < position then b else b + length

theorem spliced_zero (length b : Nat) : spliced 0 length b = b + length := by
  simp [spliced]

theorem spliced_succ {position length b : Nat} (h : b + 1 ≠ position) :
    spliced position length (b + 1) = spliced position length b + 1 := by
  unfold spliced
  split <;> split <;> omega

/-- The instruction before the block keeps its place. -/
theorem spliced_pred {position length b : Nat} (h : b + 1 = position) :
    spliced position length b = b := by
  simp [spliced, ← h]

/-- No instruction of the code stands in the block. -/
theorem spliced_not_mem (position length b : Nat) :
    ¬ (position ≤ spliced position length b ∧ spliced position length b < position + length) := by
  unfold spliced
  split <;> omega

/-- What stands where the instruction of a position has gone is that instruction. -/
theorem getElem?_spliced {code block : Code} {position : Nat} (hposition : position ≤ code.length)
    (b : Nat) :
    (code.take position ++ block ++ code.drop position)[spliced position block.length b]? =
      code[b]? := by
  have hlength : (code.take position).length = position := by simp [hposition]
  rw [List.append_assoc]
  unfold spliced
  split
  · next hb =>
    rw [List.getElem?_append_left (by omega), List.getElem?_take, if_pos hb]
  · next hb =>
    rw [List.getElem?_append_right (by omega), hlength, List.getElem?_append_right (by omega),
      List.getElem?_drop]
    congr 1
    omega

/-- A target moves with the instruction it points to. -/
theorem spliceDistance_eq (position length : Nat) (t : Target) :
    t.toNat + spliceDistance position length false t = spliced position length t.toNat := by
  unfold spliceDistance spliced
  split <;> split <;> grind

end Bytecode.Code

namespace Machine

open Bytecode

/-- `code'` is `code` with a block put in before a position and its targets moved. -/
structure Splices (τ : Target → Target) (code : Code) (position : Nat) (block code' : Code) :
    Prop where
  placed : Placed code' position block
  getElem? : ∀ b, code'[Code.spliced position block.length b]? =
    (code[b]?).map (Instruction.mapTargets τ)
  targets : ∀ i ∈ code, ∀ t ∈ i.targets, (τ t).toNat = Code.spliced position block.length t.toNat
  length : code'.length = block.length + code.length
  origin : ∀ i' ∈ code', i' ∈ block ∨ ∃ i ∈ code, i' = i.mapTargets τ

theorem toNat_add_toUInt64 {t : Target} {n : Nat} (h : t.toNat + n < Code.targetBound) :
    (t + n.toUInt64).toNat = t.toNat + n := by
  unfold Code.targetBound at h
  rw [UInt64.toNat_add, Nat.toUInt64_eq, UInt64.toNat_ofNat']
  omega

theorem splices_of_eq {code block code' : Code} {position : Nat}
    (hposition : position ≤ code.length)
    (hfits : ∀ i ∈ code, ∀ t ∈ i.targets,
      t.toNat + Code.spliceDistance position block.length false t < Code.targetBound)
    {τ : Target → Target}
    (hτ : τ = fun t => t + (Code.spliceDistance position block.length false t).toUInt64)
    (h : (code.map (Instruction.mapTargets τ)).take position ++ block ++
      (code.map (Instruction.mapTargets τ)).drop position = code') :
    Splices τ code position block code' := by
  have hlength : ((code.map (Instruction.mapTargets τ)).take position).length = position := by
    simp [hposition]
  refine ⟨?_, ?_, ?_, ?_, ?_⟩
  · have := Placed.of_append ((code.map (Instruction.mapTargets τ)).take position) block
      ((code.map (Instruction.mapTargets τ)).drop position)
    rwa [hlength, ← List.append_assoc, h] at this
  · intro b
    rw [← h, ← List.getElem?_map]
    exact Code.getElem?_spliced (by simpa using hposition) b
  · intro i hi t ht
    rw [hτ, toNat_add_toUInt64 (hfits i hi t ht), Code.spliceDistance_eq]
  · rw [← h]
    simp
    omega
  · intro i' hi'
    have hcode : i' ∈ block ∨ i' ∈ code.map (Instruction.mapTargets τ) := by
      rw [← h, List.mem_append, List.mem_append] at hi'
      rcases hi' with (hi' | hi') | hi'
      · exact .inr (List.mem_of_mem_take hi')
      · exact .inl hi'
      · exact .inr (List.mem_of_mem_drop hi')
    refine hcode.imp_right fun hi' => ?_
    obtain ⟨i, hi, rfl⟩ := List.mem_map.1 hi'
    exact ⟨i, hi, rfl⟩

/-- Splicing a block in gives spliced code. -/
theorem exists_splices {code block code' : Code} {position : Nat}
    (h : Code.insert? code position block false = some code') (hblock : block ≠ []) :
    position ≤ code.length ∧ ∃ τ, Splices τ code position block code' := by
  by_cases hposition : position ≤ code.length
  · by_cases hfits : code.all fun i => i.targets.all fun t =>
        t.toNat + Code.spliceDistance position block.length false t < Code.targetBound
    · simp only [Code.insert?, List.isEmpty_iff, hblock, if_false, hposition, if_true,
        Code.moveTargets?, hfits, Option.bind_eq_bind, Option.bind_some, Option.pure_def,
        Option.some.injEq] at h
      exact ⟨hposition, _, splices_of_eq hposition (by simpa using hfits) rfl h⟩
    · simp [Code.insert?, hblock, hposition, Code.moveTargets?, hfits] at h
  · simp [Code.insert?, hblock, hposition] at h

namespace Splices

variable {τ : Target → Target} {code block code' : Code}

/-- Behind a block at the front, every instruction stands further on. -/
theorem getElem?_front (h : Splices τ code 0 block code') (b : Nat) :
    code'.toArray[b + block.length]? = (code.toArray[b]?).map (Instruction.mapTargets τ) := by
  simpa [Code.spliced_zero] using h.getElem? b

theorem targets_front (h : Splices τ code 0 block code') :
    ∀ i ∈ code.toArray, ∀ t ∈ i.targets, (τ t).toNat = t.toNat + block.length := by
  intro i hi t ht
  rw [h.targets i (by simpa using hi) t ht, Code.spliced_zero]

end Splices

/-! ## Frames further on -/

namespace Frame

/-- The frame, a number of positions further on in other code. -/
def shifted (f : Frame) (k : Nat) (code : Array Instruction) : Frame :=
  { f with code, position := f.position + k }

end Frame

/-- The step with its frame a number of positions further on in other code. -/
def Step.shifted (k : Nat) (code : Array Instruction) : Step → Step
  | .next f s => .next (f.shifted k code) s
  | .call c f s => .call c (f.shifted k code) s
  | .done v s => .done v s
  | .fault e s => .fault e s

namespace Frame

variable {k : Nat} {code' : Array Instruction}

/-- An instruction does further on what it does where it stands. -/
theorem execute_shifted (f : Frame) {τ : Target → Target} (i : Instruction) (s : State)
    (hτ : ∀ t ∈ i.targets, (τ t).toNat = t.toNat + k) :
    (f.shifted k code').execute (i.mapTargets τ) s = (f.execute i s).shifted k code' := by
  have hmirrors : f.Mirrors Eq τ (f.shifted k code') i s s (f.execute i s) _ :=
    execute_mirrors rfl rfl rfl (Alike.refl f i s)
  revert hmirrors
  generalize f.execute i s = x
  generalize (f.shifted k code').execute (i.mapTargets τ) s = y
  rintro (⟨⟨rfl, rfl⟩ | ⟨t, ht, rfl, rfl⟩, rfl⟩ | - | rfl | rfl)
  · simp [Step.shifted, shifted, Nat.add_right_comm]
  · simp [Step.shifted, shifted, hτ t ht]
  · simp [Step.shifted, shifted, Nat.add_right_comm]
  · rfl
  · rfl

/-- A frame that goes on further on in spliced code does what it would do in the code. -/
theorem step_shifted {f : Frame} {code' : Array Instruction} {τ : Target → Target}
    (hget : ∀ b, code'[b + k]? = (f.code[b]?).map (Instruction.mapTargets τ))
    (hτ : ∀ i ∈ f.code, ∀ t ∈ i.targets, (τ t).toNat = t.toNat + k) (s : State) :
    (f.shifted k code').step s = (f.step s).shifted k code' := by
  unfold step
  rw [show (f.shifted k code').remaining = f.remaining from rfl]
  cases f.remaining with
  | zero => rfl
  | succ remaining =>
    dsimp only
    rw [show (f.shifted k code').code[(f.shifted k code').position]? = _ from hget f.position]
    rcases hi : f.code[f.position]? with _ | i
    · rfl
    · exact execute_shifted { f with remaining } i s (hτ i (Array.mem_of_getElem? hi))

end Frame

/-! ## Activations side by side -/

/--
Two threads that differ in one activation only: it runs `code` in the one and spliced code in the
other, `k` positions further on. It is the running frame, or it waits below other frames, or it has
been left. The frames of `base` wait for it.
-/
inductive Beside (k : Nat) (code code' : Array Instruction) (base : List Frame) :
    Progress → Progress → Prop
  | running {f : Frame} {s : State} : f.code = code →
      Beside k code code' base (.running ⟨f, base, s⟩) (.running ⟨f.shifted k code', base, s⟩)
  | waiting {f g : Frame} {gs : List Frame} {s : State} : f.code = code →
      Beside k code code' base (.running ⟨g, gs ++ f :: base, s⟩)
        (.running ⟨g, gs ++ f.shifted k code' :: base, s⟩)
  | left (x : Progress) : Beside k code code' base x x

namespace Beside

variable {k : Nat} {code code' : Array Instruction} {base : List Frame}

theorem returning {f : Frame} (hf : f.code = code) (gs : List Frame) (v : Option Value)
    (s : State) : Beside k code code' base (.returning v (gs ++ f :: base) s)
      (.returning v (gs ++ f.shifted k code' :: base) s) := by
  cases gs with
  | nil => exact .running (f := f.resume v) hf
  | cons g gs => exact .waiting hf

theorem enter (p : Program) {f : Frame} (hf : f.code = code) (gs : List Frame) (c : Call)
    (s : State) : Beside k code code' base (p.enter c (gs ++ f :: base) s)
      (p.enter c (gs ++ f.shifted k code' :: base) s) := by
  unfold Program.enter
  rcases p.callee c s with e | callee
  · exact .left _
  · cases callee with
    | code body =>
      dsimp only
      rcases Frame.start body c.args with e | g
      · exact .left _
      · exact .waiting hf
    | hook className =>
      dsimp only
      rcases (runHook p.config className c.name c.args).run s with ⟨e | v, s'⟩
      · exact .left _
      · exact returning hf gs v s'

variable {τ : Target → Target}

/-- The two threads make the same step. -/
theorem step (p : Program)
    (hget : ∀ b, code'[b + k]? = (code[b]?).map (Instruction.mapTargets τ))
    (hτ : ∀ i ∈ code, ∀ t ∈ i.targets, (τ t).toNat = t.toNat + k) {x y : Progress}
    (h : Beside k code code' base x y) :
    Beside k code code' base (p.after 1 x) (p.after 1 y) := by
  cases h with
  | left => exact .left _
  | @running f s hf =>
    subst hf
    show Beside k f.code code' base (p.step _) (p.step _)
    have hshifted := Frame.step_shifted hget hτ s
    unfold Program.step
    dsimp only
    rw [hshifted]
    rcases hstep : f.step s with ⟨g, t⟩ | ⟨c, g, t⟩ | ⟨v, t⟩ | ⟨e, t⟩
    · obtain ⟨i, -, hgoes⟩ := Frame.goes_of_step hstep
      exact .running hgoes.code
    · obtain ⟨-, -, count, -, -, -, -, hcode, -⟩ := Frame.of_step_call hstep
      exact enter p hcode [] c t
    · exact .left _
    · exact .left _
  | @waiting f g gs s hf =>
    show Beside k code code' base (p.step _) (p.step _)
    unfold Program.step
    dsimp only
    rcases g.step s with ⟨g', t⟩ | ⟨c, g', t⟩ | ⟨v, t⟩ | ⟨e, t⟩
    · exact .waiting hf
    · exact enter p hf (g' :: gs) c t
    · exact returning hf gs v t
    · exact .left _

/-- **Behind the block**, the two threads go on step for step. -/
theorem after (p : Program)
    (hget : ∀ b, code'[b + k]? = (code[b]?).map (Instruction.mapTargets τ))
    (hτ : ∀ i ∈ code, ∀ t ∈ i.targets, (τ t).toNat = t.toNat + k) {x y : Progress}
    (h : Beside k code code' base x y) (n : Nat) :
    Beside k code code' base (p.after n x) (p.after n y) := by
  induction n generalizing x y with
  | zero => exact h
  | succ n ih =>
    rw [Nat.add_comm, p.after_add 1 n x, p.after_add 1 n y]
    exact ih (step p hget hτ h)

end Beside

end Machine

end StorageWeave
