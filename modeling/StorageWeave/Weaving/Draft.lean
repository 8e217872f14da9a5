import Std.Data.TreeMap
import Std.Data.TreeSet
import StorageWeave.Bytecode.Class
import StorageWeave.Weaving.Error

/-!
# Classes under construction

A draft is a class to which members are added at the end. A field must have a new name, and a method
a new name and signature. The draft keeps the names that are taken in search trees, so that adding
a member does not look at the others; `Draft.fieldNames_iff` and `Draft.signatures_iff` say that the
trees hold the names of the members.
-/

namespace StorageWeave.Weaving

open Bytecode

/-- The signatures of methods by their names. -/
abbrev SignatureTable : Type := Std.TreeMap String (List Signature)

namespace SignatureTable

/-- Adds the signature of a method. -/
def record (t : SignatureTable) (m : MethodDef) : SignatureTable :=
  t.insert m.name (m.signature :: t.getD m.name [])

/-- The table of a list of methods. -/
def ofMethods (ms : List MethodDef) : SignatureTable := ms.foldl record {}

theorem mem_record (t : SignatureTable) (m : MethodDef) (name : String) (s : Signature) :
    s ∈ (t.record m).getD name [] ↔
      (m.name = name ∧ m.signature = s) ∨ s ∈ t.getD name [] := by
  by_cases same : m.name = name
  · subst same
    simp [record, eq_comm]
  · simp [record, Std.TreeMap.getD_insert, same]

theorem mem_foldl_record (ms : List MethodDef) (t : SignatureTable) (name : String)
    (s : Signature) :
    s ∈ (ms.foldl record t).getD name [] ↔
      (∃ m ∈ ms, m.name = name ∧ m.signature = s) ∨ s ∈ t.getD name [] := by
  induction ms generalizing t with
  | nil => simp
  | cons m rest ih =>
    rw [List.foldl_cons, ih, mem_record]
    grind

theorem mem_ofMethods (ms : List MethodDef) (name : String) (s : Signature) :
    s ∈ (ofMethods ms).getD name [] ↔ ∃ m ∈ ms, m.name = name ∧ m.signature = s := by
  simp [ofMethods, mem_foldl_record]

end SignatureTable

/-- A class under construction, and the names that its members take. -/
structure Draft where
  /-- The class without its members. -/
  header : ClassDef
  fields : Array FieldDef
  methods : Array MethodDef
  fieldNames : Std.TreeSet String
  signatures : SignatureTable
  fieldNames_iff : ∀ name, name ∈ fieldNames ↔ ∃ f ∈ fields, f.name = name
  signatures_iff : ∀ name s, s ∈ signatures.getD name [] ↔
    ∃ m ∈ methods, m.name = name ∧ m.signature = s

namespace Draft

/-- The draft that starts from a class. -/
def ofClass (c : ClassDef) : Draft where
  header := c
  fields := c.fields.toArray
  methods := c.methods.toArray
  fieldNames := .ofList (c.fields.map (·.name))
  signatures := .ofMethods c.methods
  fieldNames_iff name := by simp
  signatures_iff name s := by simp [SignatureTable.mem_ofMethods]

/-- The class that a draft has come to. -/
def toClass (d : Draft) : ClassDef :=
  { d.header with fields := d.fields.toList, methods := d.methods.toList }

/-- Adds a field with a new name. -/
def addField (d : Draft) (f : FieldDef) : Except WeaveError Draft :=
  if d.fieldNames.contains f.name then .error (.duplicateMember d.header.name f.name)
  else .ok { d with
    fields := d.fields.push f
    fieldNames := d.fieldNames.insert f.name
    fieldNames_iff := by
      intro name
      simp only [Std.TreeSet.mem_insert, Std.LawfulEqCmp.compare_eq_iff_eq, d.fieldNames_iff,
        Array.mem_push]
      grind }

/-- Adds a method with a new name and signature. -/
def addMethod (d : Draft) (m : MethodDef) : Except WeaveError Draft :=
  if m.signature ∈ d.signatures.getD m.name [] then
    .error (.duplicateMember d.header.name (m.name ++ m.signature.render))
  else .ok { d with
    methods := d.methods.push m
    signatures := d.signatures.record m
    signatures_iff := by
      intro name s
      rw [SignatureTable.mem_record, d.signatures_iff]
      simp only [Array.mem_push]
      grind }

@[simp] theorem toClass_ofClass (c : ClassDef) : (ofClass c).toClass = c := by
  simp [ofClass, toClass]

/-- A field is added exactly if its name is new, and then at the end. -/
theorem addField_eq (d : Draft) (f : FieldDef) :
    (d.addField f).map toClass =
      if (d.toClass.field? f.name).isSome then .error (.duplicateMember d.toClass.name f.name)
      else .ok { d.toClass with fields := d.toClass.fields ++ [f] } := by
  have taken : d.fieldNames.contains f.name = (d.toClass.field? f.name).isSome := by
    rw [Bool.eq_iff_iff, Std.TreeSet.contains_iff_mem, d.fieldNames_iff]
    simp [ClassDef.field?, toClass]
  unfold addField
  rw [taken]
  split
  · rfl
  · simp [Except.map, toClass]

/-- A method is added exactly if its name and signature are new, and then at the end. -/
theorem addMethod_eq (d : Draft) (m : MethodDef) :
    (d.addMethod m).map toClass =
      if (d.toClass.method? m.name m.signature).isSome then
        .error (.duplicateMember d.toClass.name (m.name ++ m.signature.render))
      else .ok { d.toClass with methods := d.toClass.methods ++ [m] } := by
  have taken : m.signature ∈ d.signatures.getD m.name [] ↔
      (d.toClass.method? m.name m.signature).isSome := by
    rw [d.signatures_iff]
    simp [ClassDef.method?, MethodDef.isNamed, toClass]
  unfold addMethod
  by_cases h : m.signature ∈ d.signatures.getD m.name []
  · rw [if_pos h, if_pos (taken.mp h)]
    rfl
  · rw [if_neg h, if_neg (fun t => h (taken.mpr t))]
    simp [Except.map, toClass]

end Draft

end StorageWeave.Weaving
