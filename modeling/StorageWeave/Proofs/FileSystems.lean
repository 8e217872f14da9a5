import Mathlib.Data.List.Forall2
import StorageWeave.Proofs.Container
import StorageWeave.Proofs.Paths
import StorageWeave.Weaving.File

/-!
# Weaving files is all or nothing

A `FileSystem` has operations with a state, in which paths of files lead to places and the files
there have contents. Any operation may fail, also halfway through a file that is being written, but
a file is moved in one step and what is to be removed is gone. Different names stand at different
places.

What the operations leave as it is carries over to the functions that use them (`View.SameBut`), so
reading changes nothing, and writing an archive changes its path only when all has been written
(`FileSystem.run_writeArchive`). So weaving a file that fails leaves the file at its output as it
was and no new temporary file, and one that succeeds has put the woven archive there
(`weaveFile_all_or_nothing`). The volumes are such file systems, whatever they refuse
(`Volume.fileSystem`).
-/

namespace StorageWeave

open Archive

namespace Files

/-! ## Files and their places -/

/-- The files of a file system, as paths lead to them. -/
structure View (σ π : Type) where
  /-- The place of the file that a path leads to. -/
  place? : σ → String → Option π
  /-- The content of the file at a place. -/
  content? : σ → π → Option Bytes

namespace View

variable {σ π : Type} {w : View σ π} {paths : List String} {s s₁ s' : σ} {path : String}

/-- The content of the file that a path leads to. -/
def contentAt (w : View σ π) (s : σ) (path : String) : Option Bytes :=
  (w.place? s path).bind (w.content? s)

/-- Paths lead where they led, and the files at other places than those of the given paths have the
contents they had. -/
def SameBut (w : View σ π) (paths : List String) (s s' : σ) : Prop :=
  w.place? s' = w.place? s ∧
    ∀ l, (∀ path ∈ paths, w.place? s path ≠ some l) → w.content? s' l = w.content? s l

/-- The archive that can be read from a path. -/
def Holds (w : View σ π) (s : σ) (path : String) (a : Archive) : Prop :=
  ∃ b, w.contentAt s path = some b ∧ Archive.decode b = .ok a

namespace SameBut

theorem refl (w : View σ π) (paths : List String) (s : σ) : w.SameBut paths s s :=
  ⟨rfl, fun _ _ => rfl⟩

theorem mono {paths' : List String} (h : w.SameBut paths s s') (hpaths : paths ⊆ paths') :
    w.SameBut paths' s s' :=
  ⟨h.1, fun l hl => h.2 l fun path hpath => hl path (hpaths hpath)⟩

theorem trans (h : w.SameBut paths s s₁) (h' : w.SameBut paths s₁ s') : w.SameBut paths s s' := by
  refine ⟨h'.1.trans h.1, fun l hl => ?_⟩
  rw [h'.2 l (by rwa [h.1]), h.2 l hl]

/-- A path to another place leads to the content that it led to. -/
theorem contentAt_eq (h : w.SameBut paths s s')
    (hpath : ∀ l, w.place? s path = some l → ∀ path' ∈ paths, w.place? s path' ≠ some l) :
    w.contentAt s' path = w.contentAt s path := by
  unfold contentAt
  rw [h.1]
  rcases hplace : w.place? s path with _ | l
  · rfl
  · exact h.2 l (hpath l hplace)

theorem holds (h : w.SameBut [] s s') {a : Archive} (ha : w.Holds s' path a) :
    w.Holds s path a := by
  obtain ⟨b, hb, hdecode⟩ := ha
  exact ⟨b, by rwa [← h.contentAt_eq (by simp)], hdecode⟩

end SameBut

end View

/--
A file system. Every operation may fail. Writing may leave anything in the file that is written, and
what has been written is there for certain when it has been flushed.
-/
structure FileSystem (σ π : Type) extends View σ π where
  operations : Operations (StateM σ)
  /-- Paths to one place end in one name. -/
  fileName?_eq {s : σ} {path path' : String} {l : π} :
    place? s path = some l → place? s path' = some l → fileName? path = fileName? path'
  read_same {s s' : σ} {path : String} {r : Option Bytes} :
    (operations.read path).run s = (r, s') → toView.SameBut [] s s'
  read_content {s s' : σ} {path : String} {b : Bytes} :
    (operations.read path).run s = (some b, s') → toView.contentAt s path = some b
  create_same {s s' : σ} {path : String} {r : Bool} :
    (operations.create path).run s = (r, s') → toView.SameBut [path] s s'
  write_same {s s' : σ} {path : String} {b : Bytes} {r : Bool} :
    (operations.write path b).run s = (r, s') → toView.SameBut [path] s s'
  flush_same {s s' : σ} {path : String} {r : Bool} :
    (operations.flush path).run s = (r, s') → toView.SameBut [path] s s'
  flushed {s s₁ s₂ s' : σ} {path : String} {b : Bytes} :
    (operations.create path).run s = (true, s₁) →
    (operations.write path b).run s₁ = (true, s₂) →
    (operations.flush path).run s₂ = (true, s') → toView.contentAt s' path = some b
  /-- A file is moved as a whole. -/
  renamed {s s' : σ} {source target : String} :
    (operations.rename source target).run s = (true, s') →
    toView.SameBut [source, target] s s' ∧
      toView.contentAt s' target = toView.contentAt s source ∧
      (place? s source ≠ place? s target → toView.contentAt s' source = none)
  /-- A move that fails changes nothing. -/
  not_renamed {s s' : σ} {source target : String} :
    (operations.rename source target).run s = (false, s') → toView.SameBut [] s s'
  isPresent_same {s s' : σ} {path : String} {r : Bool} :
    (operations.isPresent path).run s = (r, s') → toView.SameBut [] s s'
  isPresent_eq {s s' : σ} {path : String} {r : Bool} {b : Bytes} :
    (operations.isPresent path).run s = (r, s') → toView.contentAt s path = some b → r = true
  removed {s s' : σ} {path : String} :
    (operations.remove path).run s = ((), s') →
    toView.SameBut [path] s s' ∧ toView.contentAt s' path = none

/-- What a computation with a state comes to is what its second part makes of the first. -/
theorem run_bind_eq {σ α β : Type} {x : StateM σ α} {f : α → StateM σ β} {s s' : σ} {b : β} :
    (x >>= f).run s = (b, s') ↔ ∃ a s₁, x.run s = (a, s₁) ∧ (f a).run s₁ = (b, s') := by
  rw [StateT.run_bind]
  constructor
  · exact fun h => ⟨_, _, rfl, h⟩
  · rintro ⟨a, s₁, hx, h⟩
    rw [hx]
    exact h

namespace FileSystem

variable {σ π : Type} (fs : FileSystem σ π) {s s' : σ}

/-! ## Reading -/

theorem run_readArchive {path : String} {r : Except ArchiveError Archive}
    (h : (readArchive fs.operations path).run s = (r, s')) :
    fs.SameBut [] s s' ∧ ∀ a, r = .ok a → fs.Holds s path a := by
  obtain ⟨content, s₁, hread, h⟩ := run_bind_eq.1 h
  cases content with
  | none =>
    cases h
    exact ⟨fs.read_same hread, by simp⟩
  | some b =>
    cases h
    refine ⟨fs.read_same hread, fun a ha => ⟨b, fs.read_content hread, ?_⟩⟩
    rcases hdecode : Archive.decode b with e | a'
    · rw [hdecode] at ha
      cases ha
    · rw [hdecode] at ha
      cases ha
      rfl

/-- Reading archives changes nothing and gives those that the paths hold. -/
theorem run_readArchives {paths : List String} {r : Except ArchiveError (List Archive)}
    (h : (readArchives fs.operations paths).run s = (r, s')) :
    fs.SameBut [] s s' ∧ ∀ as, r = .ok as → List.Forall₂ (fs.Holds s) paths as := by
  induction paths generalizing s s' r with
  | nil =>
    cases h
    refine ⟨.refl _ _ _, ?_⟩
    rintro _ ⟨⟩
    exact .nil
  | cons path paths ih =>
    obtain ⟨first, s₁, hfirst, h⟩ := run_bind_eq.1 h
    obtain ⟨hsame₁, hholds⟩ := fs.run_readArchive hfirst
    cases first with
    | error e =>
      cases h
      exact ⟨hsame₁, by simp⟩
    | ok a =>
      obtain ⟨rest, s₂, hrest, h⟩ := run_bind_eq.1 h
      obtain ⟨hsame₂, hrestHolds⟩ := ih hrest
      cases rest with
      | error e =>
        cases h
        exact ⟨hsame₁.trans hsame₂, by simp⟩
      | ok as =>
        cases h
        refine ⟨hsame₁.trans hsame₂, ?_⟩
        rintro _ ⟨⟩
        refine .cons (hholds a rfl) ?_
        exact (hrestHolds as rfl).imp fun _ _ ha => hsame₁.holds ha

/-! ## Writing -/

/-- A temporary file and the file that it is to become are at different places. -/
theorem place?_temporarySibling_ne (s : σ) (path : String) {l : π}
    (hl : fs.place? s (temporarySibling path) = some l) : fs.place? s path ≠ some l := by
  intro hpath
  exact fileName?_temporarySibling_ne path (fs.fileName?_eq hl hpath)

/-- A file written through a temporary one at another place is there as a whole, or only the
temporary one may have changed. -/
theorem run_writeThrough {temporary path : String} {b : Bytes} {r : Bool}
    (hplaces : ∀ l, fs.place? s temporary = some l → fs.place? s path ≠ some l)
    (h : (writeThrough fs.operations temporary path b).run s = (r, s')) :
    (r = false → fs.SameBut [temporary] s s') ∧
      (r = true → fs.SameBut [temporary, path] s s' ∧ fs.contentAt s' path = some b ∧
        fs.contentAt s' temporary = none) := by
  obtain ⟨created, s₁, hcreate, h⟩ := run_bind_eq.1 h
  have hsame₁ := fs.create_same hcreate
  cases created with
  | false =>
    cases h
    exact ⟨fun _ => hsame₁, by simp⟩
  | true =>
    obtain ⟨written, s₂, hwrite, h⟩ := run_bind_eq.1 h
    have hsame₂ := hsame₁.trans (fs.write_same hwrite)
    cases written with
    | false =>
      cases h
      exact ⟨fun _ => hsame₂, by simp⟩
    | true =>
      obtain ⟨flushed, s₃, hflush, h⟩ := run_bind_eq.1 h
      have hsame₃ := hsame₂.trans (fs.flush_same hflush)
      cases flushed with
      | false =>
        cases h
        exact ⟨fun _ => hsame₃, by simp⟩
      | true =>
        have hcontent := fs.flushed hcreate hwrite hflush
        cases r with
        | false =>
          refine ⟨fun _ => hsame₃.trans ?_, by simp⟩
          exact (fs.not_renamed h).mono (by simp)
        | true =>
          obtain ⟨hsame₄, hmoved, hgone⟩ := fs.renamed h
          refine ⟨by simp, fun _ => ⟨(hsame₃.mono (by simp)).trans hsame₄, ?_, hgone ?_⟩⟩
          · rw [hmoved, hcontent]
          · obtain ⟨l, hl, -⟩ := Option.bind_eq_some_iff.1 hcontent
            rw [hl, hsame₃.1]
            rw [hsame₃.1] at hl
            exact (hplaces l hl).symm

/-- What a failed attempt to write a file leaves: all as it was, but perhaps without the temporary
file that was there. -/
structure Kept (path : String) (s s' : σ) : Prop where
  same : fs.SameBut [temporarySibling path] s s'
  temporary : fs.contentAt s' (temporarySibling path) = none ∨
    fs.contentAt s' (temporarySibling path) = fs.contentAt s (temporarySibling path)

/-- What a file that has been written leaves. -/
structure Stored (path : String) (b : Bytes) (s s' : σ) : Prop where
  same : fs.SameBut [temporarySibling path, path] s s'
  content : fs.contentAt s' path = some b
  temporary : fs.contentAt s' (temporarySibling path) = none

variable {fs}

theorem Kept.of_same {path : String} (h : fs.SameBut [] s s') : fs.Kept path s s' :=
  ⟨h.mono (by simp), .inr (h.contentAt_eq (by simp))⟩

theorem Kept.content {path : String} (h : fs.Kept path s s') :
    fs.contentAt s' path = fs.contentAt s path := by
  refine h.same.contentAt_eq fun l hl path' hpath' htemporary => ?_
  rw [List.mem_singleton.1 hpath'] at htemporary
  exact fs.place?_temporarySibling_ne s path htemporary hl

theorem Kept.after {path : String} {s₁ : σ} (h : fs.SameBut [] s s₁) (hkept : fs.Kept path s₁ s') :
    fs.Kept path s s' := by
  refine ⟨(h.mono (by simp)).trans hkept.same, ?_⟩
  have htemporary : fs.contentAt s₁ (temporarySibling path) =
      fs.contentAt s (temporarySibling path) := h.contentAt_eq (by simp)
  rw [← htemporary]
  exact hkept.temporary

theorem Stored.after {path : String} {b : Bytes} {s₁ : σ} (h : fs.SameBut [] s s₁)
    (hstored : fs.Stored path b s₁ s') : fs.Stored path b s s' :=
  ⟨(h.mono (by simp)).trans hstored.same, hstored.content, hstored.temporary⟩

variable (fs)

/-- Writing an archive stores its encoding, or fails and keeps what is there. -/
theorem run_writeArchive {a : Archive} {path : String} {r : Except ArchiveError Unit}
    (h : (writeArchive fs.operations a path).run s = (r, s')) :
    (∀ e, r = .error e → fs.Kept path s s') ∧
      (r = .ok () → ∃ b, a.encode = .ok b ∧ fs.Stored path b s s') := by
  unfold writeArchive at h
  rcases hencode : a.encode with e | b
  · rw [hencode] at h
    cases h
    exact ⟨fun _ _ => .of_same (.refl _ _ _), by simp⟩
  · rw [hencode] at h
    obtain ⟨written, s₁, hwrite, h⟩ := run_bind_eq.1 h
    obtain ⟨hfailed, hwritten⟩ :=
      fs.run_writeThrough (fun _ => fs.place?_temporarySibling_ne s path) hwrite
    cases written with
    | true =>
      cases h
      obtain ⟨hsame, hcontent, hgone⟩ := hwritten rfl
      exact ⟨by simp, fun _ => ⟨b, rfl, hsame, hcontent, hgone⟩⟩
    | false =>
      -- The temporary file is removed, if there is one.
      obtain ⟨present, s₂, hpresent, h⟩ := run_bind_eq.1 h
      have hsame₂ := (hfailed rfl).trans ((fs.isPresent_same hpresent).mono (by simp))
      cases present with
      | true =>
        obtain ⟨⟨⟩, s₃, hremove, h⟩ := run_bind_eq.1 h
        cases h
        obtain ⟨hsame₃, hgone⟩ := fs.removed hremove
        exact ⟨fun _ _ => ⟨hsame₂.trans hsame₃, .inl hgone⟩, by simp⟩
      | false =>
        cases h
        refine ⟨fun _ _ => ⟨hsame₂, .inl ?_⟩, by simp⟩
        rw [(fs.isPresent_same hpresent).contentAt_eq (by simp)]
        rcases hcontent : fs.contentAt s₁ (temporarySibling path) with _ | content
        · rfl
        · cases fs.isPresent_eq hpresent hcontent

end FileSystem

/-! ## Volumes -/

namespace Volume

variable {v v' : Volume} {l : Location} {path : String}

/-- The content of the file at a place. -/
def content? (v : Volume) (l : Location) : Option Bytes :=
  match v.node? l with
  | some (.file content) => some content
  | _ => none

def view : View Volume Location where
  place? := fileLocation?
  content? := content?

theorem content?_eq_some_iff {b : Bytes} : v.content? l = some b ↔ v.node? l = some (.file b) := by
  unfold content?
  split <;> simp_all

theorem node?_of_fileLocation? (h : v.fileLocation? path = some l) :
    v.node? l ≠ some .directory := by
  unfold fileLocation? at h
  split at h
  · cases h
  · simpa using (Option.filter_eq_some_iff.1 h).2

theorem locate?_of_fileLocation? (h : v.fileLocation? path = some l) : v.locate? path = some l := by
  unfold fileLocation? at h
  split at h
  · cases h
  · exact (Option.filter_eq_some_iff.1 h).1

/-- The volume without what stands at a place. -/
def without (v : Volume) (l : Location) : Volume := { v with nodes := v.nodes.erase l }

theorem ne_nil_of_node? (h : v.node? l ≠ some .directory) : l ≠ [] := by
  rintro rfl
  exact h rfl

theorem node?_put (h : v.node? l ≠ some .directory) (content : Bytes) (k : Location) :
    (v.put l content).node? k = if l = k then some (.file content) else v.node? k := by
  have hl := ne_nil_of_node? h
  by_cases hk : k = []
  · simp [node?, hk, hl]
  · simp [node?, hk, put, Table.get?_set]

theorem node?_without (h : v.node? l ≠ some .directory) (k : Location) :
    (v.without l).node? k = if l = k then none else v.node? k := by
  have hl := ne_nil_of_node? h
  by_cases hk : k = []
  · simp [node?, hk, hl]
  · simp [node?, hk, without, Table.get?_erase]

theorem contentAt_of_fileLocation? (h : v.fileLocation? path = some l) :
    view.contentAt v path = v.content? l := by
  simp [View.contentAt, view, h]

/-- A volume that differs at the place of one file, where no directory stands, is the same but
there, and the path leads to what stands there now. -/
theorem sameBut_place (h : v.fileLocation? path = some l) (hl : v'.node? l ≠ some .directory)
    (hother : ∀ k, l ≠ k → v'.node? k = v.node? k) :
    view.SameBut [path] v v' ∧ view.contentAt v' path = v'.content? l := by
  have hplaces : v'.fileLocation? = v.fileLocation? := by
    refine fileLocation?_congr fun k => ?_
    by_cases hk : l = k
    · subst hk
      simp [hl, node?_of_fileLocation? h]
    · rw [hother k hk]
  refine ⟨⟨hplaces, fun k hk => ?_⟩, contentAt_of_fileLocation? (by rw [hplaces, h])⟩
  have hne : l ≠ k := by
    rintro rfl
    exact hk path (by simp) h
  simp [view, content?, hother k hne]

theorem put_place (h : v.fileLocation? path = some l) (content : Bytes) :
    view.SameBut [path] v (v.put l content) ∧
      view.contentAt (v.put l content) path = some content := by
  have hnode := node?_put (node?_of_fileLocation? h) content
  have hl : (v.put l content).node? l ≠ some .directory := by simp [hnode]
  obtain ⟨hsame, hcontent⟩ := sameBut_place h hl fun k hk => by rw [hnode, if_neg hk]
  exact ⟨hsame, by rw [hcontent, content?, hnode, if_pos rfl]⟩

theorem without_place (h : v.fileLocation? path = some l) :
    view.SameBut [path] v (v.without l) ∧ view.contentAt (v.without l) path = none := by
  have hnode := node?_without (node?_of_fileLocation? h)
  have hl : (v.without l).node? l ≠ some .directory := by simp [hnode]
  obtain ⟨hsame, hcontent⟩ := sameBut_place h hl fun k hk => by rw [hnode, if_neg hk]
  exact ⟨hsame, by rw [hcontent, content?, hnode, if_pos rfl]⟩

theorem read_eq_some {b : Bytes} (h : v.read path = some b) : view.contentAt v path = some b := by
  unfold read at h
  split at h
  · cases h
  · rcases hplace : v.fileLocation? path with _ | l
    · simp [hplace] at h
    · rw [contentAt_of_fileLocation? hplace, ← h, hplace]
      rfl

theorem store_cases {action : Action} {content : Bytes} {r : Bool}
    (h : v.store action path content = (r, v')) :
    (r = false ∧ v' = v) ∨
      ∃ l, v.fileLocation? path = some l ∧ r = true ∧ v' = v.put l content := by
  unfold store at h
  split at h
  · cases h
    exact .inl ⟨rfl, rfl⟩
  · rcases hplace : v.fileLocation? path with _ | l
    · rw [hplace] at h
      cases h
      exact .inl ⟨rfl, rfl⟩
    · rw [hplace] at h
      cases h
      exact .inr ⟨l, rfl, rfl, rfl⟩

theorem sameBut_store {action : Action} {content : Bytes} {r : Bool}
    (h : v.store action path content = (r, v')) : view.SameBut [path] v v' := by
  rcases store_cases h with ⟨-, rfl⟩ | ⟨l, hplace, -, rfl⟩
  · exact .refl _ _ _
  · exact (put_place hplace content).1

theorem contentAt_store {action : Action} {content : Bytes}
    (h : v.store action path content = (true, v')) : view.contentAt v' path = some content := by
  rcases store_cases h with ⟨⟨⟩, -⟩ | ⟨l, hplace, -, rfl⟩
  exact (put_place hplace content).2

theorem rename_cases {source target : String} {r : Bool} (h : v.rename source target = (r, v')) :
    (r = false ∧ v' = v) ∨
      ∃ l k content, v.fileLocation? source = some l ∧ v.fileLocation? target = some k ∧
        v.content? l = some content ∧ r = true ∧ v' = (v.without l).put k content := by
  unfold rename at h
  split at h
  · cases h
    exact .inl ⟨rfl, rfl⟩
  · split at h
    · rename_i l k hl hk
      split at h
      · rename_i content hcontent
        cases h
        exact .inr ⟨l, k, content, hl, hk, content?_eq_some_iff.2 hcontent, rfl, rfl⟩
      · cases h
        exact .inl ⟨rfl, rfl⟩
    · cases h
      exact .inl ⟨rfl, rfl⟩

theorem rename_true {source target : String} (h : v.rename source target = (true, v')) :
    view.SameBut [source, target] v v' ∧ view.contentAt v' target = view.contentAt v source ∧
      (v.fileLocation? source ≠ v.fileLocation? target → view.contentAt v' source = none) := by
  rcases rename_cases h with ⟨⟨⟩, -⟩ | ⟨l, k, content, hl, hk, hcontent, -, rfl⟩
  obtain ⟨hwithout, hnone⟩ := without_place hl
  have hk' : (v.without l).fileLocation? target = some k := by
    rw [← hk]
    exact congrFun hwithout.1 target
  obtain ⟨hput, hsome⟩ := put_place hk' content
  refine ⟨(hwithout.mono (by simp)).trans (hput.mono (by simp)), ?_, fun hne => ?_⟩
  · rw [hsome, contentAt_of_fileLocation? hl, hcontent]
  · rw [hput.contentAt_eq, hnone]
    intro l' hl' path' hpath' hplace
    rw [List.mem_singleton.1 hpath', ← hl', hwithout.1] at hplace
    exact hne hplace.symm

theorem isPresent_of_contentAt {b : Bytes} (h : view.contentAt v path = some b) :
    v.isPresent path = true := by
  obtain ⟨l, hplace, hcontent⟩ := Option.bind_eq_some_iff.1 h
  rw [isPresent, locate?_of_fileLocation? hplace, Option.bind_some,
    content?_eq_some_iff.1 hcontent]
  rfl

theorem contentAt_remove (v : Volume) (path : String) :
    view.SameBut [path] v (v.remove path) ∧ view.contentAt (v.remove path) path = none := by
  unfold remove
  rcases hplace : v.fileLocation? path with _ | l
  · refine ⟨.refl _ _ _, ?_⟩
    simp [View.contentAt, view, hplace]
  · exact without_place hplace

/-- A volume is a file system, whatever it refuses. -/
def fileSystem : FileSystem Volume Location where
  toView := view
  operations := operations
  fileName?_eq hplace hplace' := by
    rw [fileName?_of_fileLocation? hplace, fileName?_of_fileLocation? hplace']
  read_same h := by
    cases h
    exact .refl _ _ _
  read_content h := read_eq_some (congrArg Prod.fst h)
  create_same h := sameBut_store h
  write_same h := sameBut_store h
  flush_same h := by
    cases h
    exact .refl _ _ _
  flushed _ hwrite hflush := by
    cases congrArg Prod.snd hflush
    exact contentAt_store hwrite
  renamed h := rename_true h
  not_renamed h := by
    rcases rename_cases h with ⟨-, rfl⟩ | ⟨-, -, -, -, -, -, ⟨⟩, -⟩
    exact .refl _ _ _
  isPresent_same h := by
    cases h
    exact .refl _ _ _
  isPresent_eq h hcontent := by
    cases h
    exact isPresent_of_contentAt hcontent
  removed h := by
    cases h
    exact contentAt_remove _ _

end Volume

end Files

/-! ## Weaving -/

namespace Weaving

open Files

variable {σ π : Type} (fs : FileSystem σ π) {s s' : σ} {input output : String}
  {dependencies : List String} {config : Config} {r : Except WeaveError (List LogLine)}

/-- Weaving a file stores the encoding of the woven archive, or fails and keeps what is there. -/
theorem run_weaveFile
    (h : (weaveFile fs.operations input output dependencies config).run s = (r, s')) :
    (∀ e, r = .error e → fs.Kept output s s') ∧
      (∀ log, r = .ok log → ∃ archive archives woven b,
        fs.Holds s input archive ∧ List.Forall₂ (fs.Holds s) dependencies archives ∧
          weaveArchive archive archives config = .ok woven ∧ woven.result.encode = .ok b ∧
          log = fileLog input output archives.length woven.report ∧ fs.Stored output b s s') := by
  obtain ⟨first, s₁, hfirst, h⟩ := run_bind_eq.1 h
  obtain ⟨hsame₁, hinput⟩ := fs.run_readArchive hfirst
  cases first with
  | error e =>
    cases h
    exact ⟨fun _ _ => .of_same hsame₁, by simp⟩
  | ok archive =>
    obtain ⟨rest, s₂, hrest, h⟩ := run_bind_eq.1 h
    obtain ⟨hsame₂, hdependencies⟩ := fs.run_readArchives hrest
    have hsame := hsame₁.trans hsame₂
    cases rest with
    | error e =>
      cases h
      exact ⟨fun _ _ => .of_same hsame, by simp⟩
    | ok archives =>
      dsimp only at h
      rcases hweave : weaveArchive archive archives config with e | woven
      · rw [hweave] at h
        cases h
        exact ⟨fun _ _ => .of_same hsame, by simp⟩
      · rw [hweave] at h
        obtain ⟨wrote, s₃, hwrite, h⟩ := run_bind_eq.1 h
        obtain ⟨hkept, hstored⟩ := fs.run_writeArchive hwrite
        rcases wrote with e | ⟨⟩
        · cases h
          exact ⟨fun _ _ => .after hsame (hkept e rfl), by simp⟩
        · cases h
          obtain ⟨b, hb, hstored⟩ := hstored rfl
          refine ⟨by simp, ?_⟩
          rintro _ ⟨⟩
          refine ⟨archive, archives, woven, b, hinput archive rfl, ?_, hweave, hb, rfl,
            .after hsame hstored⟩
          exact (hdependencies archives rfl).imp fun _ _ ha => hsame₁.holds ha

/--
Weaving a file is all or nothing. When it fails, the output has the content it had, and a temporary
file is there only if it was before. When it succeeds, the output has the encoding of what the
archives that the input and the dependencies held are woven to, and no temporary file is there. The
temporary file is never the output, and nothing but these two changes.
-/
theorem weaveFile_all_or_nothing
    (h : (weaveFile fs.operations input output dependencies config).run s = (r, s')) :
    temporarySibling output ≠ output ∧
      (∀ e, r = .error e →
        fs.contentAt s' output = fs.contentAt s output ∧
        (fs.contentAt s' (temporarySibling output) = none ∨
          fs.contentAt s' (temporarySibling output) =
            fs.contentAt s (temporarySibling output)) ∧
        fs.SameBut [temporarySibling output] s s') ∧
      ∀ log, r = .ok log → ∃ archive archives woven b,
        fs.Holds s input archive ∧ List.Forall₂ (fs.Holds s) dependencies archives ∧
        weaveArchive archive archives config = .ok woven ∧ woven.result.encode = .ok b ∧
        log = fileLog input output archives.length woven.report ∧
        fs.contentAt s' output = some b ∧
        fs.contentAt s' (temporarySibling output) = none ∧
        fs.SameBut [temporarySibling output, output] s s' := by
  obtain ⟨hfailed, hwoven⟩ := run_weaveFile fs h
  refine ⟨temporarySibling_ne output, fun e he => ?_, fun log hlog => ?_⟩
  · have hkept := hfailed e he
    exact ⟨hkept.content, hkept.temporary, hkept.same⟩
  · obtain ⟨archive, archives, woven, b, hinput, hdependencies, hweave, hb, hlog, hstored⟩ :=
      hwoven log hlog
    exact ⟨archive, archives, woven, b, hinput, hdependencies, hweave, hb, hlog, hstored.content,
      hstored.temporary, hstored.same⟩

namespace Replacement

/-- The stored form of the archive without entries. -/
def empty : Bytes := [0x53, 0x43, 0x41, 0x52, 1, 0, 0, 0, 0]

/-- A volume on which an archive is woven into the file of its dependency. -/
def volume (refuses : Action → Bool) : Volume where
  nodes := ⟨[(["a"], .file Manifest.stored), (["b"], .file empty)]⟩
  refuses

def run (refuses : Action → Bool) : Except WeaveError (List LogLine) × Volume :=
  (weaveFile Volume.operations "a" "b" ["b"] {}).run (volume refuses)

/-- The volume that does not let the temporary file become the output. -/
def refused : Action → Bool := fun action => action = .rename ".b.tmp" "b"

/-- The dependency is replaced as a whole, or stays. -/
theorem run_replaces_or_keeps :
    ((run refused).1 = .error (.archive .io) ∧
        Volume.view.contentAt (run refused).2 "b" = some empty ∧
        Volume.view.contentAt (run refused).2 ".b.tmp" = none) ∧
      ∃ log, (run fun _ => false).1 = .ok log ∧
        Volume.view.contentAt (run fun _ => false).2 "b" = some Manifest.stored ∧
        Volume.view.contentAt (run fun _ => false).2 ".b.tmp" = none := by
  have hrefused : run refused = (.error (.archive .io), (run refused).2) := Prod.ext rfl rfl
  obtain ⟨log, hlog⟩ : ∃ log, (run fun _ => false).1 = .ok log := ⟨_, rfl⟩
  have hgranted : run (fun _ => false) = (.ok log, (run fun _ => false).2) := Prod.ext hlog rfl
  obtain ⟨-, hkeeps, -⟩ := weaveFile_all_or_nothing Volume.fileSystem hrefused
  obtain ⟨-, -, hreplaces⟩ := weaveFile_all_or_nothing Volume.fileSystem hgranted
  obtain ⟨hcontent, htemporary, -⟩ := hkeeps _ rfl
  obtain ⟨-, -, -, -, -, -, -, -, -, -, hgone, -⟩ := hreplaces log rfl
  have htemporaryPath : temporarySibling "b" = ".b.tmp" := by decide
  rw [htemporaryPath] at htemporary hgone
  have hnone : Volume.view.contentAt (volume refused) ".b.tmp" = none := by decide
  refine ⟨⟨by rw [hrefused], hcontent.trans (by decide), ?_⟩, log, hlog, rfl, hgone⟩
  rcases htemporary with h | h
  · exact h
  · exact h.trans hnone

end Replacement

end Weaving

end StorageWeave
