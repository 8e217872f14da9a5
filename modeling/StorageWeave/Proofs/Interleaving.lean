import Mathlib.Logic.Hydra
import StorageWeave.Proofs.Exactness

/-!
# Tasks that share a memo

The entries of an archive can be woven at the same time, with one memo for all. A task is such a
computation, cut at its accesses to the memo: what it does next depends on the memo that it finds,
and between two of its accesses the others may change the memo as they like. `Oracle.stepwise`
answers the questions of the weaver by tasks, one access for each look into the memo and one for
each answer that is kept.

The remembering oracle is the stepwise one left alone (`running_agrees`). Where no class is its own
ancestor, every look-up ends (`Hierarchy.Acyclic.exists_annotation`) and a task comes to the answer
of the exact oracle, whatever the others do to the memo between its accesses, as long as they keep
it consistent, and it keeps the memo consistent itself (`Task.Answers`). So the tasks of a pool come
to their answers in every order of their accesses (`Pool.Sound.run`), and the pool comes to an end
(`Pool.wellFounded_step`).
-/

namespace StorageWeave.Weaving

open Bytecode

/-! ## Look-ups end -/

namespace Hierarchy

variable {h : Hierarchy} {kind : String} {ref : MethodRef}

/-- No class comes back to itself through superclasses and interfaces. -/
def Acyclic (h : Hierarchy) : Prop := ∀ x, ¬ Relation.TransGen h.Parent x x

/-- Parents that have a lower rank leave no way back. -/
theorem Acyclic.of_rank (rank : String → Nat) (hrank : ∀ c ∈ h.index.classes,
    ∀ y ∈ c.definition.superclass.toList ++ c.definition.interfaces,
      rank y < rank c.definition.name) : h.Acyclic := by
  have hparent {x y : String} (hxy : h.Parent x y) : rank y < rank x := by
    obtain ⟨c, hc, hy⟩ := hxy
    obtain ⟨i, hi, rfl⟩ := Option.map_eq_some_iff.1 hc
    rw [← ClassIndex.name_of_get? hc]
    exact hrank i (List.mem_of_find?_eq_some hi) y hy
  have hlt {x y : String} (hxy : Relation.TransGen h.Parent x y) : rank y < rank x := by
    induction hxy with
    | single hxy => exact hparent hxy
    | tail _ hyz ih => exact (hparent hyz).trans ih
  exact fun x hx => lt_irrefl _ (hlt hx)

/-- A look-up fails at a class only if it is left to the parents, and fails at one of them after
others without an answer. -/
theorem annotationAt_eq_error {parent : String → Except WeaveError (Option Annotation)}
    {e : WeaveError} (herr : h.annotationAt kind parent ref = .error e) :
    h.PassesOn kind ref ∧ ref.name ≠ constructorName ∧ ∃ c before y after,
      h.index.get? ref.owner = some c ∧ c.superclass.toList ++ c.interfaces = before ++ y :: after ∧
      (∀ z ∈ before, parent z = .ok none) ∧ parent y = .error e := by
  obtain ⟨a, -, ha⟩ | ⟨-, -, hnone⟩ | ⟨hpasses, hname, c, hc, hparents⟩ :=
    h.annotationAt_spec kind ref
  · rw [ha] at herr
    cases herr
  · rw [hnone] at herr
    cases herr
  · rw [hparents] at herr
    obtain ⟨before, y, after, hsplit, hbefore, hy⟩ := firstSomeM_eq_error herr
    exact ⟨hpasses, hname, c, before, y, after, hc, hsplit, hbefore, hy⟩

section Steps

/-! The steps of a look-up, along a relation that has every step of one that fails. -/

variable {R : String → String → Prop}
  (hR : ∀ {n x e}, h.annotationFrom kind (n + 1) { ref with owner := x } = .error e →
    (h.index.get? x).isSome ∧
      ∃ y, R x y ∧ ∃ e', h.annotationFrom kind n { ref with owner := y } = .error e')

include hR

/-- A look-up that fails on paths of `n` classes has gone over `n` different indexed classes, if
its steps do not come back. -/
theorem exists_nodup_of_error {x : String} {n : Nat} {e : WeaveError}
    (hno : ∀ z, Relation.ReflTransGen R x z → ¬ Relation.TransGen R z z)
    (herr : h.annotationFrom kind n { ref with owner := x } = .error e) :
    ∃ names : List String, names.Nodup ∧ names.length = n ∧
      ∀ z ∈ names, Relation.ReflTransGen R x z ∧ (h.index.get? z).isSome := by
  induction n generalizing x e with
  | zero => exact ⟨[], List.nodup_nil, rfl, by simp⟩
  | succ n ih =>
    obtain ⟨hindexed, y, hstep, e', hfail⟩ := hR herr
    obtain ⟨names, hnodup, hlength, hnames⟩ := ih (fun z hz => hno z (.head hstep hz)) hfail
    have hnew : x ∉ names := fun hmem => hno x .refl (.head' hstep (hnames x hmem).1)
    refine ⟨x :: names, List.nodup_cons.2 ⟨hnew, hnodup⟩, by simp [hlength], ?_⟩
    refine List.forall_mem_cons.2 ⟨⟨.refl, hindexed⟩, fun z hz => ?_⟩
    obtain ⟨hz, hindexed⟩ := hnames z hz
    exact ⟨.head hstep hz, hindexed⟩

/-- A look-up ends if its steps do not come back. -/
theorem exists_annotation_of_steps
    (hno : ∀ z, Relation.ReflTransGen R ref.owner z → ¬ Relation.TransGen R z z) :
    ∃ a, h.annotation kind ref = .ok a := by
  rcases herr : h.annotation kind ref with e | a
  · obtain ⟨names, hnodup, hlength, hnames⟩ := exists_nodup_of_error hR hno herr
    have hle := ClassIndex.length_le_size hnodup fun z hz => (hnames z hz).2
    rw [hlength, pathBound] at hle
    omega
  · exact ⟨a, rfl⟩

end Steps

/-- **Every look-up ends** where no class is its own ancestor. -/
theorem Acyclic.exists_annotation (hac : h.Acyclic) (kind : String) (ref : MethodRef) :
    ∃ a, h.annotation kind ref = .ok a := by
  refine exists_annotation_of_steps (R := h.Parent) (fun herr => ?_) fun z _ => hac z
  obtain ⟨-, -, c, before, y, after, hc, hsplit, -, hy⟩ := annotationAt_eq_error herr
  exact ⟨Option.isSome_of_eq_some hc, y, ⟨c, hc, by simp [hsplit]⟩, _, hy⟩

end Hierarchy

/-! ## Tasks -/

/-- A computation that shares a memo with others, one access after the other. -/
inductive Task (α : Type) where
  | done (result : Except WeaveError α)
  /-- Changes the memo, and goes on as the memo was before. -/
  | access (change : Memo → Memo) (next : Memo → Task α)

namespace Task

variable {α β : Type}

/-- Goes on with another task after a result. -/
def andThen (f : α → Task β) : Task α → Task β
  | done (.ok a) => f a
  | done (.error e) => done (.error e)
  | access change next => access change fun memo => (next memo).andThen f

/-- Goes on with another task after an error. -/
def orElse (handler : WeaveError → Task α) : Task α → Task α
  | done (.ok a) => done (.ok a)
  | done (.error e) => handler e
  | access change next => access change fun memo => (next memo).orElse handler

instance : Monad Task where
  pure a := done (.ok a)
  bind t f := t.andThen f

instance : MonadExceptOf WeaveError Task where
  throw e := done (.error e)
  tryCatch t handler := t.orElse handler

/-- Looks into the memo. -/
def look (f : Memo → α) : Task α := access id fun memo => pure (f memo)

/-- Changes the memo. -/
def keep (change : Memo → Memo) : Task Unit := access change fun _ => pure ()

/-- The task alone with a memo. -/
def run : Task α → Memo → Except WeaveError (α × Memo)
  | done r, memo => r.map (·, memo)
  | access change next, memo => (next memo).run (change memo)

theorem run_bind (t : Task α) (f : α → Task β) (memo : Memo) :
    (t >>= f).run memo = t.run memo >>= fun r => (f r.1).run r.2 := by
  induction t generalizing memo with
  | done r => cases r <;> rfl
  | access change next ih => exact ih memo (change memo)

/-! ## The stepwise oracle -/

/-- The questions about descent, each with a table of its own. -/
inductive Descent where
  | storage
  | contract

namespace Descent

/-- The class to descend from. -/
def root (h : Hierarchy) : Descent → String
  | storage => h.config.storageRoot
  | contract => h.config.contractRoot

/-- The answers that a memo has. -/
def known : Descent → Memo → Table String Bool
  | storage, memo => memo.storage
  | contract, memo => memo.contract

/-- Keeps one answer for all classes of a chain. -/
def record (chain : List String) (verdict : Bool) : Descent → Memo → Memo
  | storage, memo =>
    { memo with storage := chain.foldl (fun t c => t.set c verdict) memo.storage }
  | contract, memo =>
    { memo with contract := chain.foldl (fun t c => t.set c verdict) memo.contract }

end Descent

/-- Keeps the verdict of a walk for the classes walked over. -/
def settle (d : Descent) (verdict : Bool) (chain : List String) : Task Bool := do
  keep (d.record chain verdict)
  return verdict

/-- Walks to superclasses, with a look into the memo at every class. -/
def walk (h : Hierarchy) (d : Descent) : Nat → List String → String → Task Bool
  | 0, chain, _ => settle d false chain
  | fuel + 1, chain, name =>
    if name = d.root h then settle d true chain
    else do
      match ← look fun memo => (d.known memo).get? name with
      | some verdict => settle d verdict chain
      | none =>
        if name ∈ chain then settle d false chain
        else
          match h.superclassOf name with
          | none => settle d false (name :: chain)
          | some s => walk h d fuel (name :: chain) s

/-- Whether a class descends from a root. -/
def descends (h : Hierarchy) (d : Descent) (name : String) : Task Bool := do
  match ← look fun memo => (d.known memo).get? name with
  | some verdict => return verdict
  | none => walk h d h.walkBound [] name

/-- Looks an annotation up along paths of at most `fuel` classes, keeping the answer at each. -/
def annotationFrom (h : Hierarchy) (kind : String) : Nat → MethodRef → Task (Option Annotation)
  | 0, ref => throw (.endlessLookup ref.owner ref.name)
  | fuel + 1, ref => do
    match ← look fun memo => memo.annotations.get? (kind, ref) with
    | some answer => return answer
    | none =>
      let answer ← h.annotationAt kind
        (fun parent => annotationFrom h kind fuel { ref with owner := parent }) ref
      keep fun memo => { memo with annotations := memo.annotations.set (kind, ref) answer }
      return answer

end Task

/-- The oracle whose answers are given in single accesses to a memo. -/
def Oracle.stepwise (h : Hierarchy) : Oracle Task where
  isStorage := Task.descends h .storage
  isContract := Task.descends h .contract
  annotation kind ref := Task.annotationFrom h kind h.pathBound ref

/-! ## A task alone -/

/-- Being what a task does alone, as a relation between tasks and remembering computations. -/
def alone : Correspondence Task Remembering where
  Rel t x := ∀ memo, t.run memo = x.run memo
  pure _ _ := rfl
  bind {α β} {t x f g} ht hf memo := by
    rw [Task.run_bind, ht, StateT.run_bind]
    exact bind_congr fun r => hf r.1 r.2

namespace Task

variable {h : Hierarchy}

theorem run_look_bind {α β : Type} (f : Memo → α) (g : α → Task β) (memo : Memo) :
    (look f >>= g).run memo = (g (f memo)).run memo := rfl

theorem run_settle (d : Descent) (verdict : Bool) (chain : List String) (memo : Memo) :
    (settle d verdict chain).run memo = .ok (verdict, d.record chain verdict memo) := rfl

theorem run_walk (d : Descent) (fuel : Nat) (chain : List String) (name : String) (memo : Memo) :
    (walk h d fuel chain name).run memo =
      let r := Memo.walk h (d.root h) (d.known memo) fuel chain name
      .ok (r.1, d.record r.2 r.1 memo) := by
  induction fuel generalizing chain name with
  | zero => rfl
  | succ fuel ih =>
    rw [walk, Memo.walk]
    by_cases hroot : name = d.root h
    · rw [if_pos hroot, if_pos hroot, run_settle]
    rw [if_neg hroot, if_neg hroot, run_look_bind]
    rcases (d.known memo).get? name with _ | verdict
    swap
    · exact run_settle d verdict chain memo
    by_cases hmem : name ∈ chain
    · simp only [if_pos hmem, run_settle]
    simp only [if_neg hmem]
    rcases h.superclassOf name with _ | s
    · exact run_settle d false (name :: chain) memo
    · exact ih _ _

theorem run_descends (d : Descent) (name : String) (memo : Memo) :
    (descends h d name).run memo =
      let r := Memo.descendsFrom h (d.root h) (d.known memo) name
      .ok (r.1, match d with
        | .storage => { memo with storage := r.2 }
        | .contract => { memo with contract := r.2 }) := by
  rw [descends, run_look_bind, Memo.descendsFrom]
  rcases hget : (d.known memo).get? name with _ | verdict
  · simp only [run_walk]
    cases d <;> rfl
  · cases d <;> rfl

theorem run_annotationFrom (kind : String) (fuel : Nat) (ref : MethodRef) :
    alone.Rel (annotationFrom h kind fuel ref) (Memo.annotationFrom h kind fuel ref) := by
  induction fuel generalizing ref with
  | zero => exact fun _ => rfl
  | succ fuel ih =>
    intro memo
    rw [annotationFrom, Memo.annotationFrom, run_look_bind]
    rcases hget : memo.annotations.get? (kind, ref) with _ | answer
    · rw [Memo.consult_of_new hget, run_bind]
      rw [alone.annotationAt (fun parent => ih _) h kind ref memo]
      rfl
    · rw [Memo.consult_of_known hget]
      rfl

end Task

/-! ## Answers -/

namespace Memo.Consistent

variable {h : Hierarchy} {memo : Memo}

theorem known (hmemo : memo.Consistent h) (d : Task.Descent) {name : String} {b : Bool}
    (hget : (d.known memo).get? name = some b) : b = h.descendsFrom (d.root h) name := by
  cases d with
  | storage => exact hmemo.storage name b hget
  | contract => exact hmemo.contract name b hget

theorem record (hmemo : memo.Consistent h) (d : Task.Descent) {chain : List String}
    {verdict : Bool} (hchain : ∀ z ∈ chain, h.descendsFrom (d.root h) z = verdict) :
    (d.record chain verdict memo).Consistent h := by
  have hset {t : Table String Bool}
      (ht : ∀ z b, t.get? z = some b → b = h.descendsFrom (d.root h) z) (z : String) (b : Bool)
      (hz : (chain.foldl (fun t c => t.set c verdict) t).get? z = some b) :
      b = h.descendsFrom (d.root h) z := by
    rcases get?_foldl_set chain t hz with ⟨hmem, rfl⟩ | hz
    · exact (hchain z hmem).symm
    · exact ht z b hz
  cases d with
  | storage => exact ⟨hset hmemo.storage, hmemo.contract, hmemo.annotations⟩
  | contract => exact ⟨hmemo.storage, hset hmemo.contract, hmemo.annotations⟩

theorem annotation_eq (hmemo : memo.Consistent h) {kind : String} {ref : MethodRef} {n : Nat}
    {a r : Option Annotation} (hget : memo.annotations.get? (kind, ref) = some a)
    (hr : h.annotationFrom kind n ref = .ok r) : a = r := by
  obtain ⟨m, hm⟩ := hmemo.annotations kind ref a hget
  have := (Hierarchy.annotationFrom_mono (Nat.le_max_left m n) hm).symm.trans
    (Hierarchy.annotationFrom_mono (Nat.le_max_right m n) hr)
  exact Except.ok.inj this

end Memo.Consistent

namespace Task

variable {h : Hierarchy} {α β : Type}

/-- A task comes to an answer, if every memo that it finds is consistent, and it keeps the memo
consistent. -/
def Answers (h : Hierarchy) (answer : Except WeaveError α) : Task α → Prop
  | done r => r = answer
  | access change next => ∀ memo : Memo, memo.Consistent h →
    (change memo).Consistent h ∧ (next memo).Answers h answer

theorem Answers.bind {t : Task α} {x : Except WeaveError α} {f : α → Task β}
    {g : α → Except WeaveError β} (ht : t.Answers h x)
    (hf : ∀ a, x = .ok a → (f a).Answers h (g a)) : (t >>= f).Answers h (x >>= g) := by
  induction t with
  | done r =>
    obtain rfl : r = x := ht
    cases r with
    | error e => exact rfl
    | ok a => exact hf a rfl
  | access change next ih =>
    intro memo hmemo
    obtain ⟨hchange, hnext⟩ := ht memo hmemo
    exact ⟨hchange, ih memo hnext⟩

theorem Answers.look {f : Memo → α} {g : α → Task β} {y : Except WeaveError β}
    (hg : ∀ memo, memo.Consistent h → (g (f memo)).Answers h y) :
    (Task.look f >>= g).Answers h y :=
  fun memo hmemo => ⟨hmemo, hg memo hmemo⟩

theorem Answers.keep {change : Memo → Memo} {t : Task α} {y : Except WeaveError α}
    (hchange : ∀ memo, memo.Consistent h → (change memo).Consistent h) (ht : t.Answers h y) :
    (Task.keep change >>= fun _ => t).Answers h y :=
  fun memo hmemo => ⟨hchange memo hmemo, ht⟩

theorem answers_settle (d : Descent) {verdict : Bool} {chain : List String}
    (hchain : ∀ z ∈ chain, h.descendsFrom (d.root h) z = verdict) :
    (settle d verdict chain).Answers h (.ok verdict) :=
  .keep (fun _ hmemo => hmemo.record d hchain) rfl

theorem answers_walk (d : Descent) {fuel : Nat} {chain : List String} {name : String}
    (hwalked : Memo.Walked h (d.root h) chain name)
    (hfuel : h.walkBound ≤ fuel + chain.length) :
    (walk h d fuel chain name).Answers h (.ok (h.descendsFrom (d.root h) name)) := by
  induction fuel generalizing chain name with
  | zero =>
    have := hwalked.length_lt
    omega
  | succ fuel ih =>
    have hsettle {verdict : Bool} (hverdict : h.descendsFrom (d.root h) name = verdict) :
        (settle d verdict chain).Answers h (.ok (h.descendsFrom (d.root h) name)) := by
      rw [← hverdict]
      exact answers_settle d hwalked.descendsFrom_eq
    rw [walk]
    by_cases hroot : name = d.root h
    · rw [if_pos hroot]
      exact hsettle (by rw [hroot, Hierarchy.descendsFrom_self])
    rw [if_neg hroot]
    refine .look fun memo hmemo => ?_
    rcases hget : (d.known memo).get? name with _ | verdict
    swap
    · exact hsettle (hmemo.known d hget).symm
    by_cases hmem : name ∈ chain
    · simp only [if_pos hmem]
      exact hsettle (hwalked.not_descendsFrom hmem)
    simp only [if_neg hmem]
    rcases hs : h.superclassOf name with _ | s
    · have hend := Memo.not_descendsFrom_of_end hroot hs
      simp only [hend]
      refine answers_settle d (List.forall_mem_cons.2 ⟨hend, fun z hz => ?_⟩)
      rw [hwalked.descendsFrom_eq z hz, hend]
    · rw [Hierarchy.descendsFrom_superclass hs hroot]
      exact ih (hwalked.cons hroot hmem hs) (by rw [List.length_cons]; omega)

theorem answers_descends (d : Descent) (name : String) :
    (descends h d name).Answers h (.ok (h.descendsFrom (d.root h) name)) := by
  refine .look fun memo hmemo => ?_
  rcases hget : (d.known memo).get? name with _ | verdict
  · exact answers_walk d (.nil name) (Nat.le_add_right _ _)
  · exact congrArg Except.ok (hmemo.known d hget)

theorem answers_firstSomeM {f : α → Task (Option β)} {g : α → Except WeaveError (Option β)}
    (hfg : ∀ x r, g x = .ok r → (f x).Answers h (.ok r)) {xs : List α} {r : Option β}
    (hg : firstSomeM g xs = .ok r) : (firstSomeM f xs).Answers h (.ok r) := by
  induction xs with
  | nil => exact hg
  | cons x xs ih =>
    rw [firstSomeM] at hg
    obtain ⟨a, ha, hg⟩ := bind_eq_ok.1 hg
    rw [firstSomeM, ← show (Except.ok a >>= fun _ => Except.ok r) = (.ok r : Except WeaveError _)
      from rfl]
    refine (hfg x a ha).bind fun a' ha' => ?_
    cases ha'
    cases a with
    | some b => exact hg
    | none => exact ih hg

/-- A look-up that ends comes to its answer. -/
theorem answers_annotationFrom {kind : String} {fuel : Nat} {ref : MethodRef}
    {r : Option Annotation} (hr : h.annotationFrom kind fuel ref = .ok r) :
    (annotationFrom h kind fuel ref).Answers h (.ok r) := by
  induction fuel generalizing ref r with
  | zero => cases hr
  | succ fuel ih =>
    refine .look fun memo hmemo => ?_
    rcases hget : memo.annotations.get? (kind, ref) with _ | known
    swap
    · exact congrArg Except.ok (hmemo.annotation_eq hget hr)
    have hstep : (h.annotationAt kind
        (fun parent => annotationFrom h kind fuel { ref with owner := parent }) ref).Answers h
        (.ok r) := by
      rw [Hierarchy.annotationFrom] at hr
      obtain ⟨a, -, ha⟩ | ⟨parents, hparents⟩ := h.annotationAt_cases kind ref
      · rw [ha] at hr ⊢
        exact hr
      · rw [hparents] at hr ⊢
        exact answers_firstSomeM (fun parent r hparent => ih hparent) hr
    refine hstep.bind (g := fun a => .ok a) fun answer hanswer => ?_
    cases hanswer
    exact .keep (fun _ hmemo => hmemo.keep hr) rfl

end Task

/-- Coming to an answer, as a relation between tasks and exact computations. -/
def answering (h : Hierarchy) : Simulation Task (Except WeaveError) where
  Rel t y := t.Answers h y
  pure _ := rfl
  bind ht hf := ht.bind fun a _ => hf a
  throw _ := rfl

/-- **The stepwise oracle** comes to the answers of the exact one. -/
theorem answering_agrees {h : Hierarchy} (hac : h.Acyclic) :
    (answering h).Agrees (.stepwise h) (.exact h) where
  isStorage name := Task.answers_descends .storage name
  isContract name := Task.answers_descends .contract name
  lookUp kind ref := by
    obtain ⟨a, ha⟩ := hac.exists_annotation kind ref
    change (Task.annotationFrom h kind h.pathBound ref).Answers h (h.annotation kind ref)
    rw [ha]
    exact Task.answers_annotationFrom ha

/-- A task that is alone with a consistent memo comes to its answer too. -/
theorem Task.Answers.run {h : Hierarchy} {α : Type} {t : Task α} {y : Except WeaveError α}
    (ht : t.Answers h y) {memo : Memo} (hmemo : memo.Consistent h) :
    (t.run memo).map Prod.fst = y ∧ ∀ r, t.run memo = .ok r → r.2.Consistent h := by
  induction t generalizing memo with
  | done r =>
    obtain rfl : r = y := ht
    cases r with
    | error e => exact ⟨rfl, nofun⟩
    | ok a =>
      refine ⟨rfl, ?_⟩
      rintro r ⟨⟩
      exact hmemo
  | access change next ih =>
    obtain ⟨hchange, hnext⟩ := ht memo hmemo
    exact ih memo hnext hchange

/-! ## The remembering oracle -/

/-- The remembering oracle has no other answers than those found on paths that repeat no class. -/
theorem Memo.inherited_eq {h : Hierarchy} {memo : Memo} (hmemo : memo.Consistent h) (kind : String)
    (ref : MethodRef) :
    (Memo.inherited h kind ref).run memo =
      (Memo.annotationFrom h kind h.pathBound ref).run memo := by
  change Memo.inherited h kind ref memo = Memo.annotationFrom h kind h.pathBound ref memo
  unfold Memo.inherited
  split
  · next r hr => exact hr.symm
  next e he =>
  rcases hlookUp : Memo.lookUp h kind ref memo with _ | r
  · exact he.symm
  -- an answer without a bound is one of the hierarchy, which the bounded look-up would have found
  obtain ⟨-, n, hn⟩ := Sound.lookUp hmemo hlookUp
  have hanswer := Task.answers_annotationFrom (Hierarchy.annotation_of_annotationFrom hn)
  obtain ⟨hrun, -⟩ := hanswer.run hmemo
  rw [Task.run_annotationFrom kind h.pathBound ref memo] at hrun
  change Except.map _ (Memo.annotationFrom h kind h.pathBound ref memo) = _ at hrun
  rw [he] at hrun
  cases hrun

/-- Doing what a task does alone with a consistent memo, and keeping the memo consistent. -/
def running (h : Hierarchy) : Simulation Task Remembering where
  Rel t x := ∀ memo, memo.Consistent h →
    t.run memo = x.run memo ∧ ∀ r, x.run memo = .ok r → r.2.Consistent h
  pure a memo hmemo := by
    refine ⟨rfl, ?_⟩
    rintro r ⟨⟩
    exact hmemo
  bind {α β} {t x f g} ht hf memo hmemo := by
    obtain ⟨hrun, hnext⟩ := ht memo hmemo
    rw [Task.run_bind, hrun, StateT.run_bind]
    rcases hx : x.run memo with e | r
    · exact ⟨rfl, nofun⟩
    · exact hf r.1 r.2 (hnext r hx)
  throw _ _ _ := ⟨rfl, nofun⟩

theorem alone.running {h : Hierarchy} {α : Type} {t : Task α} {x : Remembering α} {P : α → Prop}
    (ht : alone.Rel t x) (hx : Sound h x P) : (running h).Rel t x :=
  fun memo hmemo => ⟨ht memo, fun r hr => (hx memo r.1 r.2 hmemo hr).1⟩

/-- **The remembering oracle** answers as the stepwise one does alone. -/
theorem running_agrees (h : Hierarchy) : (running h).Agrees (.stepwise h) (.remembering h) where
  isStorage name := alone.running (Task.run_descends .storage name) (Sound.isStorage name)
  isContract name := alone.running (Task.run_descends .contract name) (Sound.isContract name)
  lookUp kind ref memo hmemo := by
    change _ = (Memo.inherited h kind ref).run memo ∧
      ∀ r, (Memo.inherited h kind ref).run memo = .ok r → _
    rw [Memo.inherited_eq hmemo]
    exact alone.running (Task.run_annotationFrom kind h.pathBound ref)
      (Sound.annotationFrom kind h.pathBound ref) memo hmemo

/-! ## Pools -/

/-- An access leads to the next stage of a task. -/
inductive Task.Next {α : Type} : Task α → Task α → Prop
  | access (change : Memo → Memo) (next : Memo → Task α) (memo : Memo) :
    Next (next memo) (.access change next)

theorem Task.wellFounded_next {α : Type} : WellFounded (Task.Next (α := α)) := by
  refine ⟨fun t => ?_⟩
  induction t with
  | done r => exact ⟨_, nofun⟩
  | access change next ih =>
    refine ⟨_, ?_⟩
    rintro _ ⟨_, _, memo⟩
    exact ih memo

theorem forall₂_replace {α β : Type} {R : α → β → Prop} {before after : List α} {x : α}
    {ys : List β} (h : List.Forall₂ R (before ++ x :: after) ys) :
    ∃ y, R x y ∧ ∀ x', R x' y → List.Forall₂ R (before ++ x' :: after) ys := by
  induction before generalizing ys with
  | nil =>
    obtain ⟨y, ys, hy, hafter, rfl⟩ := List.forall₂_cons_left_iff.1 h
    exact ⟨y, hy, fun x' hx' => .cons hx' hafter⟩
  | cons z before ih =>
    obtain ⟨y, ys, hz, hrest, rfl⟩ := List.forall₂_cons_left_iff.1 h
    obtain ⟨y', hy', hreplace⟩ := ih hrest
    exact ⟨y', hy', fun x' hx' => .cons hz (hreplace x' hx')⟩

/-- Tasks that share a memo. -/
structure Pool (α : Type) where
  memo : Memo
  tasks : List (Task α)

namespace Pool

variable {α : Type} {h : Hierarchy} {p q : Pool α}

/-- One task makes its next access. -/
inductive Step : Pool α → Pool α → Prop
  | access (memo : Memo) (before after : List (Task α)) (change : Memo → Memo)
      (next : Memo → Task α) :
    Step ⟨memo, before ++ .access change next :: after⟩
      ⟨change memo, before ++ next memo :: after⟩

/-- What the tasks of a pool have come to: their results, or the error of one of them. -/
inductive Yields (p : Pool α) : Except WeaveError (List α) → Prop
  | ok (results : List α) (h : p.tasks = results.map fun a => .done (.ok a)) :
      Yields p (.ok results)
  | error (e : WeaveError) (h : .done (.error e) ∈ p.tasks) : Yields p (.error e)

/-- **Every order** of accesses comes to an end. -/
theorem wellFounded_step : WellFounded fun q p : Pool α => p.Step q := by
  refine Subrelation.wf ?_ (InvImage.wf (fun p : Pool α => (p.tasks : Multiset (Task α)))
    Task.wellFounded_next.cutExpand)
  rintro _ _ ⟨memo, before, after, change, next⟩
  refine ⟨{next memo}, .access change next, ?_, ?_⟩
  · intro t ht
    rw [Multiset.mem_singleton.1 ht]
    exact .access change next memo
  · simp only [← Multiset.coe_add, ← Multiset.cons_coe, ← Multiset.singleton_add]
    ac_rfl

/-- A pool whose tasks have not all ended makes a step. -/
theorem exists_step_or_yields (p : Pool α) : (∃ q, p.Step q) ∨ ∃ r, p.Yields r := by
  by_cases hdone : ∀ t ∈ p.tasks, ∃ r, t = .done r
  swap
  · push Not at hdone
    obtain ⟨t, ht, hdone⟩ := hdone
    cases t with
    | done r => exact absurd rfl (hdone r)
    | access change next =>
      obtain ⟨before, after, htasks⟩ := List.append_of_mem ht
      obtain ⟨memo, tasks⟩ := p
      obtain rfl : tasks = _ := htasks
      exact .inl ⟨_, .access memo before after change next⟩
  by_cases herror : ∃ e, .done (.error e) ∈ p.tasks
  · obtain ⟨e, he⟩ := herror
    exact .inr ⟨_, .error e he⟩
  have hok : ∀ t ∈ p.tasks, ∃ a, .done (.ok a) = t := by
    intro t ht
    obtain ⟨r, rfl⟩ := hdone t ht
    cases r with
    | error e => exact absurd ⟨e, ht⟩ herror
    | ok a => exact ⟨a, rfl⟩
  have hrange : p.tasks ∈ Set.range (List.map fun a : α => Task.done (.ok a)) := by
    rw [Set.range_list_map]
    exact hok
  obtain ⟨results, hresults⟩ := hrange
  exact .inr ⟨_, .ok results hresults.symm⟩

/-- Every order of accesses comes to something. -/
theorem exists_yields (p : Pool α) : ∃ q r, Relation.ReflTransGen Step p q ∧ q.Yields r := by
  induction p using wellFounded_step.induction with
  | _ p ih =>
    obtain ⟨q, hstep⟩ | ⟨r, hr⟩ := p.exists_step_or_yields
    · obtain ⟨q', r, hrun, hr⟩ := ih q hstep
      exact ⟨q', r, .head hstep hrun, hr⟩
    · exact ⟨p, r, .refl, hr⟩

/-- The memo of a pool is consistent, and its tasks come to the given answers. -/
structure Sound (h : Hierarchy) (answers : List (Except WeaveError α)) (p : Pool α) : Prop where
  memo : p.memo.Consistent h
  tasks : List.Forall₂ (fun t y => t.Answers h y) p.tasks answers

variable {answers : List (Except WeaveError α)}

theorem Sound.step (hp : p.Sound h answers) (hstep : p.Step q) : q.Sound h answers := by
  obtain ⟨memo, before, after, change, next⟩ := hstep
  obtain ⟨y, hy, hreplace⟩ := forall₂_replace hp.tasks
  obtain ⟨hchange, hnext⟩ := hy memo hp.memo
  exact ⟨hchange, hreplace _ hnext⟩

/-- **In every order** of their accesses the tasks come to the same answers. -/
theorem Sound.run (hp : p.Sound h answers) (hrun : Relation.ReflTransGen Step p q) :
    q.Sound h answers := by
  induction hrun with
  | refl => exact hp
  | tail _ hstep ih => exact ih.step hstep

/-- Results are the answers of all tasks, and an error is the answer of one. -/
theorem Sound.yields (hp : p.Sound h answers) {r : Except WeaveError (List α)}
    (hr : p.Yields r) :
    (∃ results, r = .ok results ∧ answers = results.map .ok) ∨
      ∃ e, r = .error e ∧ .error e ∈ answers := by
  cases hr with
  | ok results htasks =>
    refine .inl ⟨results, rfl, ?_⟩
    have hrel := hp.tasks
    rw [htasks, List.forall₂_map_left_iff] at hrel
    exact (List.forall₂_eq_eq_eq ▸ List.forall₂_map_left_iff.2 hrel).symm
  | error e he =>
    obtain ⟨y, hy, hanswer⟩ := exists_of_forall₂_right hp.tasks.flip he
    cases (hanswer : Except.error e = y)
    exact .inr ⟨e, rfl, hy⟩

/-! ## Tasks one after the other -/

/-- One task goes on alone. -/
theorem run_task (t : Task α) (memo : Memo) (before after : List (Task α)) :
    match t.run memo with
    | .ok (a, memo') => Relation.ReflTransGen Step ⟨memo, before ++ t :: after⟩
        ⟨memo', before ++ .done (.ok a) :: after⟩
    | .error e => ∃ memo', Relation.ReflTransGen Step ⟨memo, before ++ t :: after⟩
        ⟨memo', before ++ .done (.error e) :: after⟩ := by
  induction t generalizing memo with
  | done r =>
    cases r with
    | ok a => exact .refl
    | error e => exact ⟨memo, .refl⟩
  | access change next ih =>
    have hstep := Step.access memo before after change next
    have hnext := ih memo (change memo)
    rw [Task.run]
    split at hnext
    · exact .head hstep hnext
    · obtain ⟨memo', hrun⟩ := hnext
      exact ⟨memo', .head hstep hrun⟩

/-- The tasks go on one after the other, from memo to memo. -/
theorem run_tasks {β : Type} {f : β → Task α} {g : β → Remembering α}
    (hfg : ∀ x, (running h).Rel (f x) (g x)) (xs : List β) {memo : Memo}
    (hmemo : memo.Consistent h) (before : List (Task α)) :
    match (xs.mapM g).run memo with
    | .ok (results, memo') => Relation.ReflTransGen Step ⟨memo, before ++ xs.map f⟩
        ⟨memo', before ++ results.map fun a => .done (.ok a)⟩
    | .error e => ∃ q, Relation.ReflTransGen Step ⟨memo, before ++ xs.map f⟩ q ∧
        .done (.error e) ∈ q.tasks := by
  induction xs generalizing memo before with
  | nil => exact .refl
  | cons x xs ih =>
    have htask := run_task (f x) memo before (xs.map f)
    obtain ⟨halone, hnext⟩ := hfg x memo hmemo
    rw [halone] at htask
    rw [List.mapM_cons, StateT.run_bind]
    rcases hx : (g x).run memo with e | ⟨a, memo'⟩
    · rw [hx] at htask
      obtain ⟨memo', hrun⟩ := htask
      exact ⟨_, hrun, by simp⟩
    rw [hx] at htask
    rw [show ∀ (k : α × Memo → Except WeaveError (List α × Memo)), (Except.ok (a, memo') >>= k) =
      k (a, memo') from fun _ => rfl, StateT.run_bind]
    have hrest := ih (hnext _ hx) (before ++ [.done (.ok a)])
    rcases hxs : (xs.mapM g).run memo' with e | ⟨as, memo''⟩
    · rw [hxs] at hrest
      obtain ⟨q, hrun, he⟩ := hrest
      exact ⟨q, htask.trans (by simpa using hrun), he⟩
    · rw [hxs] at hrest
      exact htask.trans (by simpa using hrest)

/-- Doing the tasks one after the other is one of the orders. -/
theorem exists_run {β : Type} {f : β → Task α} {g : β → Remembering α}
    (hfg : ∀ x, (running h).Rel (f x) (g x)) (xs : List β) {memo : Memo}
    (hmemo : memo.Consistent h) :
    ∃ q, Relation.ReflTransGen Step ⟨memo, xs.map f⟩ q ∧ q.Yields ((xs.mapM g).run' memo) := by
  have hrun := run_tasks hfg xs hmemo []
  rw [StateT.run'_eq]
  rcases hxs : (xs.mapM g).run memo with e | ⟨results, memo'⟩
  · rw [hxs] at hrun
    obtain ⟨q, hrun, he⟩ := hrun
    exact ⟨q, hrun, .error e he⟩
  · rw [hxs] at hrun
    exact ⟨_, hrun, .ok results rfl⟩

end Pool

end StorageWeave.Weaving
