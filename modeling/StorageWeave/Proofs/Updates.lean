import StorageWeave.Proofs.Extraction

/-!
# Exact reports of changed fields

An extraction from an object whose fields hold values of their kinds reports exactly the fields
that differ from their shadows, renews those shadows and changes nothing else (`Reported`).
-/

namespace StorageWeave

open Bytecode Weaving

namespace Machine

/-! ## Kinds of values -/

/-- Whether a value is of a kind. -/
def Value.hasKind : ValueKind → Value → Bool
  | .int, .int _ => true
  | .long, .long _ => true
  | .float, .float _ => true
  | .double, .double _ => true
  | .reference, .null => true
  | .reference, .str _ => true
  | .reference, .object _ => true
  | _, _ => false

/-- Whether two values of a field differ: numbers by their bits, references as branches on
references see them. -/
def Value.differs : FieldType → Value → Value → Bool
  | .primitive _, a, b => a ≠ b
  | .reference _, a, b => !a.equals b

/-- Whether the values of a field can be compared: references always can. -/
def Value.comparable : FieldType → Value → Bool
  | .primitive kind, v => v.hasKind (FieldType.primitive kind).valueKind
  | .reference _, _ => true

theorem Value.comparable_of_hasKind {t : FieldType} {v : Value} (h : v.hasKind t.valueKind = true) :
    v.comparable t = true := by
  cases t with
  | primitive kind => exact h
  | reference className => rfl

theorem orderValue_ne_zero (x y : Int) : orderValue (compare x y) ≠ 0 ↔ x ≠ y := by
  have heq : compare x y = .eq ↔ x = y := Std.LawfulEqCmp.compare_eq_iff_eq
  rw [Ne, Ne, ← heq]
  cases compare x y <;> decide

theorem toInt32_injective {x y : UInt32} (h : x.toInt32 = y.toInt32) : x = y := by
  cases h
  rfl

theorem toInt64_injective {x y : UInt64} (h : x.toInt64 = y.toInt64) : x = y := by
  cases h
  rfl

/-- Values of their kinds are compared by their bits. -/
theorem comparison_eq_ok {t : FieldType} {a b : Value} (ha : a.comparable t = true)
    (hb : b.comparable t = true) : comparison t a b = .ok (a.differs t b) := by
  rcases t with kind | className
  · cases kind with
    | boolean | byte | char | short | int =>
      cases a <;> cases ha
      cases b <;> cases hb
      refine congrArg Except.ok (decide_eq_decide.2 ?_)
      simp
    | long =>
      cases a <;> cases ha
      cases b <;> cases hb
      refine congrArg Except.ok (decide_eq_decide.2 ((orderValue_ne_zero _ _).trans ?_))
      simp [Int64.toInt_inj]
    | float =>
      cases a <;> cases ha
      cases b <;> cases hb
      refine congrArg Except.ok (decide_eq_decide.2 (not_congr ⟨fun h => ?_, fun h => ?_⟩))
      · exact congrArg (fun bits => Value.float ⟨bits⟩) (toInt32_injective h)
      · cases h
        rfl
    | double =>
      cases a <;> cases ha
      cases b <;> cases hb
      refine congrArg Except.ok (decide_eq_decide.2 ((orderValue_ne_zero _ _).trans ?_))
      refine not_congr ⟨fun h => ?_, fun h => ?_⟩
      · exact congrArg (fun bits => Value.double ⟨bits⟩) (toInt64_injective (Int64.toInt_inj.1 h))
      · cases h
        rfl
  · rfl

/-! ## Reports -/

namespace State

/-- Whether a field of the object at a place differs from its shadow. -/
def hasChanged (s : State) (o : Nat) (r : ResolvedField) : Bool :=
  (s.current o r.field).differs r.field.type (s.persistedValue o r.field)

end State

/-- From `s` to `s'` exactly the changed ones of some fields of the object at `o` are reported. -/
structure Reported (h : Hierarchy) (o : Nat) (rs : List ResolvedField) (s s' : State) : Prop where
  /-- One report for each changed field, in order. -/
  updates : s'.updates = s.updates ++ ((rs.filter (s.hasChanged o)).map (s.updateOf h o)).toArray
  /-- Changed values that reach further objects are handed on. -/
  extracted : s'.extracted = s.extracted ++
    ((rs.filter fun r => s.hasChanged o r && !h.isLeaf r.field.type).map
      fun r => s.current o r.field).toArray
  /-- The shadows of changed fields are renewed. -/
  shadow : ∀ r ∈ rs, s.hasChanged o r = true →
    s'.field? (.object o) (Names.shadow r.field.name) = some (s.current o r.field)
  /-- No other field of any object is written. -/
  others : ∀ id n, (id = o → ∀ r ∈ rs, s.hasChanged o r = true → Names.shadow r.field.name ≠ n) →
    s'.field? (.object id) n = s.field? (.object id) n
  classes : ∀ id, s'.className? id = s.className? id
  persisted : s'.persisted = s.persisted
  fetches : s'.fetches = s.fetches
  entries : s'.entries = s.entries

namespace State

variable {s : State} {h : Hierarchy} {o : Nat} {r r' : ResolvedField}

/-- A report writes a shadow only. -/
theorem field?_report (ho : o < s.heap.size) (id : Nat) (n : String) :
    (s.report h o r).field? (.object id) n =
      if o = id ∧ Names.shadow r.field.name = n then some (s.current o r.field)
      else s.field? (.object id) n :=
  field?_write _ ho id _ n _

theorem read_report (ho : o < s.heap.size) {n : String} (hn : Names.shadow r.field.name ≠ n)
    (t : FieldType) : (s.report h o r).read (.object o) n t = s.read (.object o) n t := by
  rw [read, field?_report ho, if_neg fun hs => hn hs.2, read]

theorem shadow_ne {n : String} (hn : Names.isSynthetic n = false) (m : String) :
    Names.shadow m ≠ n := by
  rintro rfl
  rw [Names.isSynthetic_shadow] at hn
  cases hn

/-- A report of one field leaves another one as it is. -/
theorem report_other (ho : o < s.heap.size) (hname : Names.isSynthetic r'.field.name = false)
    (hne : r.field.name ≠ r'.field.name) :
    (s.report h o r).current o r'.field = s.current o r'.field ∧
      (s.report h o r).hasChanged o r' = s.hasChanged o r' ∧
        (s.report h o r).updateOf h o r' = s.updateOf h o r' ∧
          (s.report h o r).persistedValue o r'.field = s.persistedValue o r'.field := by
  have hcurrent : (s.report h o r).current o r'.field = s.current o r'.field :=
    read_report ho (shadow_ne hname _) _
  have hshadow : (s.report h o r).persistedValue o r'.field = s.persistedValue o r'.field :=
    read_report ho (fun hs => hne (Names.shadow_injective hs)) _
  refine ⟨hcurrent, by rw [hasChanged, hcurrent, hshadow, hasChanged], ?_, hshadow⟩
  rw [updateOf, hcurrent, read_report ho (shadow_ne (by decide) _), updateOf]

end State

namespace Reported

variable {s s' : State} {h : Hierarchy} {o : Nat} {r : ResolvedField} {rs : List ResolvedField}

theorem nil : Reported h o [] s s where
  updates := by simp
  extracted := by simp
  shadow := by simp
  others _ _ _ := rfl
  classes _ := rfl
  persisted := rfl
  fetches := rfl
  entries := rfl

theorem cons_same (hsame : s.hasChanged o r = false) (hr : Reported h o rs s s') :
    Reported h o (r :: rs) s s' where
  updates := by rw [List.filter_cons_of_neg (by simp [hsame]), hr.updates]
  extracted := by rw [List.filter_cons_of_neg (by simp [hsame]), hr.extracted]
  shadow r' hr' hc := by
    rcases List.mem_cons.1 hr' with rfl | hr'
    · rw [hsame] at hc
      cases hc
    · exact hr.shadow r' hr' hc
  others id n hn := hr.others id n fun hid r' hr' => hn hid r' (List.mem_cons_of_mem r hr')
  classes := hr.classes
  persisted := hr.persisted
  fetches := hr.fetches
  entries := hr.entries

theorem cons_changed (ho : o < s.heap.size) (hchanged : s.hasChanged o r = true)
    (hother : ∀ r' ∈ rs, Names.isSynthetic r'.field.name = false ∧ r.field.name ≠ r'.field.name)
    (hr : Reported h o rs (s.report h o r) s') : Reported h o (r :: rs) s s' := by
  have hkeep (r' : ResolvedField) (hr' : r' ∈ rs) :=
    State.report_other (h := h) ho (hother r' hr').1 (hother r' hr').2
  refine ⟨?_, ?_, ?_, ?_, ?_, hr.persisted, hr.fetches, hr.entries⟩
  · have hrest : (rs.filter ((s.report h o r).hasChanged o)).map ((s.report h o r).updateOf h o) =
        (rs.filter (s.hasChanged o)).map (s.updateOf h o) := by
      rw [List.filter_congr fun r' hr' => (hkeep r' hr').2.1]
      exact List.map_congr_left fun r' hr' => (hkeep r' (List.mem_of_mem_filter hr')).2.2.1
    rw [hr.updates, hrest, List.filter_cons_of_pos hchanged]
    simp [State.report, State.write]
  · have hrest : (rs.filter fun r' =>
          (s.report h o r).hasChanged o r' && !h.isLeaf r'.field.type).map
          (fun r' => (s.report h o r).current o r'.field) =
        (rs.filter fun r' => s.hasChanged o r' && !h.isLeaf r'.field.type).map
          fun r' => s.current o r'.field := by
      rw [List.filter_congr fun r' hr' => by rw [(hkeep r' hr').2.1]]
      exact List.map_congr_left fun r' hr' => (hkeep r' (List.mem_of_mem_filter hr')).1
    rw [hr.extracted, hrest]
    by_cases hleaf : h.isLeaf r.field.type = true
    · rw [List.filter_cons_of_neg (by simp [hleaf])]
      simp [State.report, State.write, hleaf]
    · rw [List.filter_cons_of_pos (by simp [hleaf, hchanged])]
      simp [State.report, State.write, hleaf]
  · intro r' hr' hc
    rcases List.mem_cons.1 hr' with rfl | hr'
    · rw [hr.others o _ fun _ q hq _ hs => (hother q hq).2 (Names.shadow_injective hs).symm,
        State.field?_report ho, if_pos ⟨rfl, rfl⟩]
    · obtain ⟨hcurrent, hsame, -⟩ := hkeep r' hr'
      rw [hr.shadow r' hr' (hsame.trans hc), hcurrent]
  · intro id n hn
    rw [hr.others id n fun hid r' hr' hc => hn hid r' (List.mem_cons_of_mem r hr')
      ((hkeep r' hr').2.1 ▸ hc), State.field?_report ho, if_neg]
    rintro ⟨rfl, hs⟩
    exact hn rfl r List.mem_cons_self hchanged hs
  · intro id
    rw [hr.classes, State.className?_report]

end Reported

/-- **An extraction is exact** where the fields can be compared. -/
theorem extract_reported {s : State} {h : Hierarchy} {o : Nat} {rs : List ResolvedField}
    (ho : o < s.heap.size) (hnames : (rs.map (·.field.name)).Nodup)
    (hordinary : ∀ r ∈ rs, Names.isSynthetic r.field.name = false)
    (hcomparable : ∀ r ∈ rs, (s.current o r.field).comparable r.field.type = true ∧
      (s.persistedValue o r.field).comparable r.field.type = true) :
    ∃ s', extract h o rs s = ⟨.ok none, s'⟩ ∧ Reported h o rs s s' := by
  induction rs generalizing s with
  | nil => exact ⟨s, rfl, .nil⟩
  | cons r rs ih =>
    obtain ⟨hr, hrs⟩ := List.nodup_cons.1 hnames
    have hother : ∀ r' ∈ rs, Names.isSynthetic r'.field.name = false ∧
        r.field.name ≠ r'.field.name := fun r' hr' =>
      ⟨hordinary r' (List.mem_cons_of_mem r hr'),
        fun he => hr (List.mem_map.2 ⟨r', hr', he.symm⟩)⟩
    obtain ⟨hcurrent, hshadow⟩ := hcomparable r List.mem_cons_self
    have hcomparison := comparison_eq_ok hcurrent hshadow
    rw [extract, hcomparison]
    cases hchanged : s.hasChanged o r with
    | false =>
      obtain ⟨s', hs', hreported⟩ := ih ho hrs (fun r' hr' => (hother r' hr').1)
        fun r' hr' => hcomparable r' (List.mem_cons_of_mem r hr')
      refine ⟨s', ?_, hreported.cons_same hchanged⟩
      rw [State.hasChanged] at hchanged
      rw [hchanged]
      exact hs'
    | true =>
      have hsize : o < (s.report h o r).heap.size := by rwa [State.size_report]
      have hcomparable' : ∀ r' ∈ rs,
          ((s.report h o r).current o r'.field).comparable r'.field.type = true ∧
            ((s.report h o r).persistedValue o r'.field).comparable r'.field.type = true := by
        intro r' hr'
        obtain ⟨hcurrent, -, -, hshadow⟩ :=
          State.report_other (h := h) ho (hother r' hr').1 (hother r' hr').2
        rw [hcurrent, hshadow]
        exact hcomparable r' (List.mem_cons_of_mem r hr')
      obtain ⟨s', hs', hreported⟩ := ih hsize hrs (fun r' hr' => (hother r' hr').1) hcomparable'
      refine ⟨s', ?_, hreported.cons_changed ho hchanged hother⟩
      rw [State.hasChanged] at hchanged
      rw [hchanged]
      exact hs'

/-- An extraction of fields that equal their shadows does nothing. -/
theorem extract_same {s : State} {h : Hierarchy} {o : Nat} {rs : List ResolvedField}
    (hsame : ∀ r ∈ rs, comparison r.field.type (s.current o r.field)
      (s.persistedValue o r.field) = .ok false) : extract h o rs s = ⟨.ok none, s⟩ := by
  induction rs with
  | nil => rfl
  | cons r rs ih =>
    rw [extract, hsame r List.mem_cons_self]
    exact ih fun r' hr' => hsame r' (List.mem_cons_of_mem r hr')

theorem Value.differs_self {t : FieldType} {v : Value} (h : v.hasKind t.valueKind = true) :
    v.differs t v = false := by
  rcases t with kind | className
  · simp [Value.differs]
  · cases v with
    | null => rfl
    | str a | object a =>
      show (!decide (a = a)) = false
      simp
    | int _ | long _ | float _ | double _ => cases h

/-- After a report no field differs from its shadow. -/
theorem Reported.current_eq {s s' : State} {h : Hierarchy} {o : Nat} {rs : List ResolvedField}
    (hreported : Reported h o rs s s') {r : ResolvedField}
    (hname : Names.isSynthetic r.field.name = false) :
    s'.current o r.field = s.current o r.field := by
  rw [State.current, State.read, hreported.others o _ fun _ q _ _ => State.shadow_ne hname _]
  rfl

theorem Reported.comparison_after {s s' : State} {h : Hierarchy} {o : Nat}
    {rs : List ResolvedField} (hreported : Reported h o rs s s')
    (hnames : (rs.map (·.field.name)).Nodup) {r : ResolvedField}
    (hname : Names.isSynthetic r.field.name = false) (hr : r ∈ rs)
    (hkinds : (s.current o r.field).hasKind r.field.type.valueKind = true ∧
      (s.persistedValue o r.field).hasKind r.field.type.valueKind = true) :
    comparison r.field.type (s'.current o r.field) (s'.persistedValue o r.field) = .ok false := by
  obtain ⟨hcurrent, hshadow⟩ := hkinds
  rw [hreported.current_eq hname]
  cases hchanged : s.hasChanged o r with
  | true =>
    have hrenewed : s'.persistedValue o r.field = s.current o r.field := by
      rw [State.persistedValue, State.read, hreported.shadow r hr hchanged]
      rfl
    rw [hrenewed, comparison_eq_ok (Value.comparable_of_hasKind hcurrent)
      (Value.comparable_of_hasKind hcurrent), Value.differs_self hcurrent]
  | false =>
    have hkept : s'.persistedValue o r.field = s.persistedValue o r.field := by
      rw [State.persistedValue, State.read, hreported.others]
      · rfl
      · intro _ q hq hqchanged hs
        obtain rfl := List.inj_on_of_nodup_map hnames hq hr (Names.shadow_injective hs)
        rw [hchanged] at hqchanged
        cases hqchanged
    rw [hkept, comparison_eq_ok (Value.comparable_of_hasKind hcurrent)
      (Value.comparable_of_hasKind hshadow)]
    exact congrArg _ hchanged

end Machine

open Machine

theorem Machine.Program.Gives.callMethod {p : Program} {s : State} {o : Nat}
    {className name : String} {signature : Signature} {args : List Value}
    {out : Outcome (Option Value)}
    (ho : s.className? o = some className)
    (hg : p.Gives ⟨.virtual, className, name, signature, .object o :: args⟩ s out) :
    ∃ fuel, p.callMethod fuel (.object o) name signature args s = some out := by
  obtain ⟨object, hobject, rfl⟩ := Option.map_eq_some_iff.1 ho
  obtain ⟨fuel, hfuel⟩ := hg.call
  refine ⟨fuel, ?_⟩
  simp only [Program.callMethod, Program.classOf, hobject]
  exact hfuel

namespace WovenLineage

variable {input : Archive} {dependencies : List Archive} {w : WovenArchive}
  {built : ClassIndex.Building} {levels : List ClassDef} {c : ClassDef} {s : State} {o a : Nat}

/-- What a call of the extraction on an object of the class does. -/
theorem gives_extract (hl : WovenLineage input dependencies w built levels c)
    (hconcrete : ∀ d ∈ levels, d.isInterface = false) (ho : s.className? o = some c.name)
    (hreports : (∃ r ∈ built.hierarchy.persistentFields levels, s.IsReported o r) →
      NoHookMethods input.classes ∧ IsAccumulator w.program s a) :
    w.program.Gives ⟨.virtual, c.name, Names.extractUpdates,
        Augmentation.extractSignature built.hierarchy, [.object o, .object a]⟩ s
      (extract built.hierarchy o (built.hierarchy.persistentFields levels) s) :=
  (hl.persistentLineage hconcrete).gives_extractUpdates hl.wovenProgram hreports
    (State.lt_size_of_className? ho) (Program.callee_virtual ho) rfl

/--
**Update extraction is exact.** On an object whose persistent fields and shadows hold values of
their kinds, the extraction returns, reports the changed fields and renews their shadows, and an
extraction right after it does nothing.
-/
theorem extractUpdates_exact (hl : WovenLineage input dependencies w built levels c)
    (hconcrete : ∀ d ∈ levels, d.isInterface = false) (hno : NoHookMethods input.classes)
    (ho : s.className? o = some c.name) (ha : IsAccumulator w.program s a)
    (hkinds : ∀ r ∈ built.hierarchy.persistentFields levels,
      (s.current o r.field).hasKind r.field.type.valueKind = true ∧
        (s.persistedValue o r.field).hasKind r.field.type.valueKind = true) :
    ∃ fuel s', w.program.callMethod fuel (.object o) Names.extractUpdates
        (Augmentation.extractSignature built.hierarchy) [.object a] s = some ⟨.ok none, s'⟩ ∧
      Reported built.hierarchy o (built.hierarchy.persistentFields levels) s s' ∧
      ∃ fuel', w.program.callMethod fuel' (.object o) Names.extractUpdates
        (Augmentation.extractSignature built.hierarchy) [.object a] s' = some ⟨.ok none, s'⟩ := by
  have hsynthetic := fun r hr => (hl.ordinary_of_mem (r := r) hr).1
  obtain ⟨s', hextract, hreported⟩ := extract_reported (h := built.hierarchy)
    (State.lt_size_of_className? ho) (Hierarchy.nodup_persistentFields hl.distinctFields)
    hsynthetic fun r hr => ⟨Value.comparable_of_hasKind (hkinds r hr).1,
      Value.comparable_of_hasKind (hkinds r hr).2⟩
  have hfirst := hl.gives_extract hconcrete ho fun _ => ⟨hno, ha⟩
  rw [hextract] at hfirst
  obtain ⟨fuel, hfuel⟩ := hfirst.callMethod ho
  have ho' : s'.className? o = some c.name := by rw [hreported.classes, ho]
  have ha' : IsAccumulator w.program s' a := by
    simpa only [IsAccumulator, hreported.classes] using ha
  have hsecond := hl.gives_extract hconcrete ho' fun _ => ⟨hno, ha'⟩
  rw [extract_same fun r hr => hreported.comparison_after
    (Hierarchy.nodup_persistentFields hl.distinctFields) (hsynthetic r hr) hr (hkinds r hr)]
    at hsecond
  exact ⟨fuel, s', hfuel, hreported, hsecond.callMethod ho'⟩

end WovenLineage

namespace Bank

/-- An object of two levels with two changed fields, and an accumulator. -/
def changed : State where
  heap := #[⟨"bank.Savings", .ofList [("balance", Value.long 7), ("rate", Value.double .zero),
    ("owner", Value.str "ann"), (Names.shadow "owner", Value.str "ann"),
    ("next", Value.object 0)]⟩, ⟨"runtime.Updates", {}⟩]

theorem extractUpdates_savings : ∃ w fuel s', weaveArchive archive [] {} = .ok w ∧
    w.program.callMethod fuel (.object 0) Names.extractUpdates
      (Augmentation.extractSignature index.hierarchy) [.object 1] changed = some ⟨.ok none, s'⟩ ∧
    s'.updates = #[⟨.null, "bank.Account", "balance", "long", .long 7⟩,
      ⟨.null, "bank.Savings", "next", "reference", .object 0⟩] ∧
    s'.extracted = #[.object 0] := by
  obtain ⟨w, hl, -⟩ := exists_wovenLineage
  have hno : NoHookMethods archive.classes := by
    rw [woven.1]
    unfold NoHookMethods
    decide
  have ha : IsAccumulator w.program changed 1 :=
    ⟨"runtime.Updates", by decide, 0, by rw [hl.wovenProgram.config]; rfl⟩
  obtain ⟨fuel, s', hcall, hreported, -⟩ :=
    WovenLineage.extractUpdates_exact (s := changed) (o := 0) hl (by decide) hno (by decide) ha
      (by decide +kernel)
  refine ⟨w, fuel, s', hl.woven, hcall, hreported.updates.trans ?_, hreported.extracted.trans ?_⟩
  · decide +kernel
  · decide +kernel

end Bank

namespace Library

/-- An object below an interface, and an accumulator. -/
def fresh : State where
  heap := #[⟨"lib.Page", {}⟩, ⟨"runtime.Updates", {}⟩]

/-- Below an interface there is no method that extracts the fields of the level above. -/
theorem extractUpdates_below_interface :
    ∃ w, WovenLineage archive [] w index [document, page] page ∧
      NoHookMethods archive.classes ∧ IsAccumulator w.program fresh 1 ∧
      (w.program.callMethod 100 (.object 0) Names.extractUpdates
        (Augmentation.extractSignature index.hierarchy) [.object 1] fresh).map (·.result) =
          some (.error (.noSuchMethod "runtime.Storage.§extractUpdates")) := by
  obtain ⟨w, hl, hprogram⟩ := exists_wovenLineage
  refine ⟨w, hl, ?_, ⟨"runtime.Updates", by decide, 0, ?_⟩, ?_⟩
  · rw [woven.1]
    unfold NoHookMethods
    decide
  · rw [hl.wovenProgram.config]
    rfl
  · rw [hprogram]
    decide +kernel

end Library

end StorageWeave
