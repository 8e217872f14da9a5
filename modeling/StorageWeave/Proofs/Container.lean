import Mathlib.Algebra.Group.Nat.Defs
import Mathlib.Data.Finset.Insert
import Mathlib.Data.List.Induction
import StorageWeave.Archive.Codec
import StorageWeave.Proofs.Members

/-!
# The archive format is exact

Every reader of the format takes exactly what the writer of the same part gives, whatever follows
(`takeBytes_eq_ok`, `takeNat_eq_ok`, `Entry.decode_eq_ok`, `decodeEntries_eq_ok`). So an archive is
stored as a byte string exactly if the byte string is read as that archive (`decode_eq_ok_iff`).

An archive also records the names that it has taken. `Reached` follows this record beside the
archive, through entries that are taken and refused and through decoding.
-/

namespace StorageWeave

open Weaving (bind_eq_ok)

namespace Bytes

theorem toNat_append_singleton (b : Bytes) (x : UInt8) :
    toNat (b ++ [x]) = 256 * toNat b + x.toNat := by
  simp [toNat]

theorem toNat_lt (b : Bytes) : toNat b < 256 ^ b.length := by
  induction b using List.reverseRecOn with
  | nil => decide
  | append_singleton b x ih =>
    have hx := x.toNat_lt
    rw [toNat_append_singleton, List.length_append, List.length_singleton, Nat.pow_succ']
    omega

/-- The bytes of a number are those it was read from. -/
theorem ofNat_toNat (b : Bytes) : ofNat b.length (toNat b) = b := by
  induction b using List.reverseRecOn with
  | nil => rfl
  | append_singleton b x ih =>
    have hx := x.toNat_lt
    have hquotient : (256 * toNat b + x.toNat) / 256 = toNat b := by omega
    have hlast : (256 * toNat b + x.toNat).toUInt8 = x := by
      apply UInt8.toNat_inj.1
      rw [Nat.toUInt8_eq, UInt8.toNat_ofNat']
      omega
    rw [toNat_append_singleton, List.length_append, List.length_singleton, ofNat, hquotient, hlast,
      ih]

end Bytes

namespace Archive

/-! ## Parts of the format -/

theorem takeBytes_eq_ok {n : Nat} {s b rest : Bytes} :
    takeBytes n s = .ok (b, rest) ↔ b.length = n ∧ s = b ++ rest := by
  unfold takeBytes
  constructor
  · intro h
    split at h
    · next hn =>
      cases h
      exact ⟨List.length_take_of_le hn, (List.take_append_drop n s).symm⟩
    · cases h
  · rintro ⟨rfl, rfl⟩
    simp

theorem takeNat_eq_ok {width n : Nat} {s rest : Bytes} :
    takeNat width s = .ok (n, rest) ↔ n < 256 ^ width ∧ s = Bytes.ofNat width n ++ rest := by
  unfold takeNat
  rw [bind_eq_ok]
  constructor
  · rintro ⟨⟨b, rest'⟩, hb, h⟩
    cases h
    obtain ⟨rfl, rfl⟩ := takeBytes_eq_ok.1 hb
    exact ⟨b.toNat_lt, by rw [b.ofNat_toNat]⟩
  · rintro ⟨hn, rfl⟩
    refine ⟨(Bytes.ofNat width n, rest), takeBytes_eq_ok.2 ⟨Bytes.length_ofNat width n, rfl⟩, ?_⟩
    exact congrArg (fun n => Except.ok (n, rest)) (Bytes.toNat_ofNat width n hn)

theorem encodeLength_eq_ok {n : Nat} {what : String} {b : Bytes} :
    encodeLength n what = .ok b ↔ n < 0x100000000 ∧ b = Bytes.ofNat 4 n := by
  unfold encodeLength
  split
  · next hn => simp [hn, eq_comm]
  · next hn => simp [hn]

namespace Entry

theorem encode_eq_ok {e : Entry} {b : Bytes} :
    e.encode = .ok b ↔ (Bytes.ofText e.name).length < 0x10000 ∧ e.data.length < 0x100000000 ∧
      b = Bytes.ofNat 2 (Bytes.ofText e.name).length ++ Bytes.ofText e.name ++
        Bytes.ofNat 4 e.data.length ++ e.data := by
  unfold encode
  extract_lets name
  split
  · next hname =>
    rw [bind_eq_ok]
    constructor
    · rintro ⟨size, hsize, h⟩
      obtain ⟨hdata, rfl⟩ := encodeLength_eq_ok.1 hsize
      cases h
      exact ⟨hname, hdata, rfl⟩
    · rintro ⟨-, hdata, rfl⟩
      exact ⟨_, encodeLength_eq_ok.2 ⟨hdata, rfl⟩, rfl⟩
  · next hname =>
    constructor
    · rintro ⟨⟩
    · exact fun h => absurd h.1 hname

/-- **An entry** is read exactly from its bytes. -/
theorem decode_eq_ok {e : Entry} {s rest : Bytes} :
    Entry.decode s = .ok (e, rest) ↔ ∃ b, e.encode = .ok b ∧ s = b ++ rest := by
  unfold Entry.decode
  constructor
  · intro h
    obtain ⟨⟨nameLength, s₁⟩, hlength, h⟩ := bind_eq_ok.1 h
    obtain ⟨⟨name, s₂⟩, hname, h⟩ := bind_eq_ok.1 h
    dsimp only at h
    split at h
    · cases h
    next name' htext =>
    obtain ⟨⟨dataLength, s₃⟩, hsize, h⟩ := bind_eq_ok.1 h
    obtain ⟨⟨data, s₄⟩, hdata, h⟩ := bind_eq_ok.1 h
    cases h
    obtain ⟨hshort, rfl⟩ := takeNat_eq_ok.1 hlength
    obtain ⟨rfl, rfl⟩ := takeBytes_eq_ok.1 hname
    obtain ⟨hsmall, rfl⟩ := takeNat_eq_ok.1 hsize
    obtain ⟨rfl, rfl⟩ := takeBytes_eq_ok.1 hdata
    obtain rfl := Bytes.text?_eq_some_iff.1 htext
    exact ⟨_, encode_eq_ok.2 ⟨hshort, hsmall, rfl⟩, by simp only [List.append_assoc]⟩
  · rintro ⟨b, hb, rfl⟩
    obtain ⟨hname, hdata, rfl⟩ := encode_eq_ok.1 hb
    simp only [List.append_assoc]
    refine bind_eq_ok.2 ⟨_, takeNat_eq_ok.2 ⟨hname, rfl⟩, ?_⟩
    refine bind_eq_ok.2 ⟨_, takeBytes_eq_ok.2 ⟨rfl, rfl⟩, ?_⟩
    dsimp only
    rw [Bytes.text?_ofText]
    refine bind_eq_ok.2 ⟨_, takeNat_eq_ok.2 ⟨hdata, rfl⟩, ?_⟩
    exact bind_eq_ok.2 ⟨_, takeBytes_eq_ok.2 ⟨rfl, rfl⟩, rfl⟩

end Entry

/-! ## Archives -/

theorem ext_entries {a b : Archive} (h : a.entries = b.entries) : a = b := by
  cases a
  cases b
  cases h
  rfl

/-- An entry is taken exactly if the archive with it has distinct names. -/
theorem push_eq_ok {a a' : Archive} {e : Entry} :
    a.push e = .ok a' ↔ a'.entries = a.entries ++ [e] := by
  refine ⟨entries_of_push, fun h => ?_⟩
  have hdistinct := a'.distinct
  rw [h, List.map_append, List.nodup_append_comm, List.map_singleton, List.singleton_append,
    List.nodup_cons] at hdistinct
  rw [push, dif_neg hdistinct.1]
  exact congrArg Except.ok (ext_entries h.symm)

theorem pushAll_eq_ok {a a' : Archive} {es : List Entry} :
    a.pushAll es = .ok a' ↔ a'.entries = a.entries ++ es := by
  unfold pushAll
  induction es generalizing a with
  | nil =>
    rw [List.foldlM_nil, List.append_nil]
    exact ⟨fun h => by rw [Except.ok.inj h], fun h => congrArg Except.ok (ext_entries h.symm)⟩
  | cons e es ih =>
    rw [List.foldlM_cons, bind_eq_ok]
    constructor
    · rintro ⟨a₁, h₁, h⟩
      rw [ih.1 h, push_eq_ok.1 h₁, List.append_assoc, List.singleton_append]
    · intro h
      -- the names up to `e` are among the distinct names of `a'`
      have hdistinct : ((a.entries ++ [e]).map Entry.name).Nodup := by
        refine a'.distinct.sublist (List.Sublist.map _ ?_)
        rw [h]
        exact (List.Sublist.refl _).append (List.singleton_sublist.2 List.mem_cons_self)
      refine ⟨⟨a.entries ++ [e], hdistinct⟩, push_eq_ok.2 rfl, ih.2 ?_⟩
      rw [h, List.append_assoc, List.singleton_append]

/-- **Entries are read** exactly from their bytes, one after the other. -/
theorem decodeEntries_eq_ok {count : Nat} {a a' : Archive} {s rest : Bytes} :
    decodeEntries count a s = .ok (a', rest) ↔
      ∃ es bs, es.length = count ∧ a.pushAll es = .ok a' ∧ es.mapM Entry.encode = .ok bs ∧
        s = bs.flatten ++ rest := by
  induction count generalizing a s with
  | zero =>
    constructor
    · intro h
      cases h
      exact ⟨[], [], rfl, rfl, rfl, rfl⟩
    · rintro ⟨es, bs, hlength, hpush, hbs, rfl⟩
      obtain rfl := List.length_eq_zero_iff.1 hlength
      cases hpush
      cases hbs
      rfl
  | succ count ih =>
    rw [decodeEntries]
    constructor
    · intro h
      obtain ⟨⟨e, s₁⟩, he, h⟩ := bind_eq_ok.1 h
      obtain ⟨a₁, ha₁, hrest⟩ := bind_eq_ok.1 h
      obtain ⟨b, hb, rfl⟩ := Entry.decode_eq_ok.1 he
      obtain ⟨es, bs, rfl, hpush, hbs, rfl⟩ := ih.1 hrest
      refine ⟨e :: es, b :: bs, rfl, ?_, ?_, by simp⟩
      · rw [pushAll, List.foldlM_cons]
        exact bind_eq_ok.2 ⟨a₁, ha₁, hpush⟩
      · rw [List.mapM_cons, hb, hbs]
        rfl
    · rintro ⟨es, bs, hlength, hpush, hbs, rfl⟩
      obtain ⟨e, es, rfl⟩ := List.exists_cons_of_length_eq_add_one hlength
      rw [List.mapM_cons] at hbs
      obtain ⟨b, hb, hbs⟩ := bind_eq_ok.1 hbs
      obtain ⟨bs', hbs', h⟩ := bind_eq_ok.1 hbs
      cases h
      rw [pushAll, List.foldlM_cons] at hpush
      obtain ⟨a₁, ha₁, hpush⟩ := bind_eq_ok.1 hpush
      refine bind_eq_ok.2 ⟨(e, bs'.flatten ++ rest), Entry.decode_eq_ok.2 ⟨b, hb, by simp⟩, ?_⟩
      exact bind_eq_ok.2 ⟨a₁, ha₁, ih.2 ⟨es, bs', by simpa using hlength, hpush, hbs', rfl⟩⟩

theorem encode_eq_ok {a : Archive} {s : Bytes} :
    a.encode = .ok s ↔ ∃ bs, a.entries.length < 0x100000000 ∧
      a.entries.mapM Entry.encode = .ok bs ∧
        s = magic ++ (Bytes.ofNat 1 version.toNat ++
          (Bytes.ofNat 4 a.entries.length ++ bs.flatten)) := by
  unfold encode
  constructor
  · intro h
    obtain ⟨count, hcount, h⟩ := bind_eq_ok.1 h
    obtain ⟨bs, hbs, h⟩ := bind_eq_ok.1 h
    obtain ⟨hlength, rfl⟩ := encodeLength_eq_ok.1 hcount
    cases h
    exact ⟨bs, hlength, hbs, by simp [Bytes.ofNat, version]⟩
  · rintro ⟨bs, hlength, hbs, rfl⟩
    refine bind_eq_ok.2 ⟨_, encodeLength_eq_ok.2 ⟨hlength, rfl⟩, bind_eq_ok.2 ⟨bs, hbs, ?_⟩⟩
    simp [Bytes.ofNat, version, pure, Except.pure]

/-- **The format is exact**: a byte string is read as an archive exactly if the archive is stored
as that byte string. -/
theorem decode_eq_ok_iff {a : Archive} {s : Bytes} : decode s = .ok a ↔ a.encode = .ok s := by
  rw [encode_eq_ok]
  unfold decode
  constructor
  · intro h
    obtain ⟨⟨head, s₁⟩, hhead, h⟩ := bind_eq_ok.1 h
    dsimp only at h
    split at h
    · cases h
    next hmagic =>
    obtain ⟨⟨v, s₂⟩, hv, h⟩ := bind_eq_ok.1 h
    dsimp only at h
    split at h
    · cases h
    next hversion =>
    obtain ⟨⟨count, s₃⟩, hcount, h⟩ := bind_eq_ok.1 h
    obtain ⟨⟨a', s₄⟩, hentries, h⟩ := bind_eq_ok.1 h
    dsimp only at h
    split at h
    swap
    · cases h
    next hend =>
    cases h
    obtain ⟨-, rfl⟩ := takeBytes_eq_ok.1 hhead
    obtain ⟨-, rfl⟩ := takeNat_eq_ok.1 hv
    obtain ⟨hsmall, rfl⟩ := takeNat_eq_ok.1 hcount
    obtain ⟨es, bs, rfl, hpush, hbs, rfl⟩ := decodeEntries_eq_ok.1 hentries
    obtain rfl : a.entries = es := pushAll_eq_ok.1 hpush
    rw [List.isEmpty_iff.1 hend, not_not.1 hmagic, not_not.1 hversion, List.append_nil]
    exact ⟨bs, hsmall, hbs, rfl⟩
  · rintro ⟨bs, hlength, hbs, rfl⟩
    have hentries : decodeEntries a.entries.length empty bs.flatten = .ok (a, []) :=
      decodeEntries_eq_ok.2 ⟨a.entries, bs, rfl, pushAll_eq_ok.2 rfl, hbs, by simp⟩
    refine bind_eq_ok.2 ⟨_, takeBytes_eq_ok.2 ⟨rfl, rfl⟩, ?_⟩
    dsimp only
    rw [if_neg (not_not.2 rfl)]
    refine bind_eq_ok.2 ⟨_, takeNat_eq_ok.2 ⟨by decide, rfl⟩, ?_⟩
    dsimp only
    rw [if_neg (not_not.2 rfl)]
    refine bind_eq_ok.2 ⟨_, takeNat_eq_ok.2 ⟨hlength, rfl⟩, ?_⟩
    exact bind_eq_ok.2 ⟨_, hentries, rfl⟩

/-! ## The record of names -/

/-- The record after taking entries one after the other. -/
def record (es : List Entry) : Finset String := es.foldl (fun names e => insert e.name names) ∅

theorem mem_record {es : List Entry} {name : String} :
    name ∈ record es ↔ name ∈ es.map Entry.name := by
  have hfold (names : Finset String) :
      name ∈ es.foldl (fun names e => insert e.name names) names ↔
        name ∈ names ∨ name ∈ es.map Entry.name := by
    induction es generalizing names with
    | nil => simp
    | cons e es ih =>
      rw [List.foldl_cons, ih, Finset.mem_insert, List.map_cons, List.mem_cons]
      tauto
  rw [record, hfold]
  simp

/--
An archive with its record of names, as the empty archive comes to it by entries that are taken or
refused, and as decoding gives it.
-/
inductive Reached : Archive → Finset String → Prop
  | empty : Reached Archive.empty ∅
  | taken {a a' : Archive} {names : Finset String} {e : Entry} :
      Reached a names → a.push e = .ok a' → Reached a' (insert e.name names)
  | refused {a : Archive} {names : Finset String} {e : Entry} {cause : FormatError} :
      Reached a names → a.push e = .error cause → Reached a names
  | decoded {a : Archive} {s : Bytes} : decode s = .ok a → Reached a (record a.entries)

/-- The record is in step with the entries. -/
theorem Reached.record_eq {a : Archive} {names : Finset String} (h : Reached a names) :
    record a.entries = names := by
  induction h with
  | empty => rfl
  | taken _ hpush ih => rw [push_eq_ok.1 hpush, record, List.foldl_append, ← record, ih]; rfl
  | refused _ _ ih => exact ih
  | decoded _ => rfl

/--
**Storing and reading are inverse.** A reached archive is stored as a byte string exactly if the
byte string is read as that archive, with the same record of names. Its record decides which
entries it takes.
-/
theorem Reached.stored_iff_read {a : Archive} {names : Finset String} (h : Reached a names) :
    (∀ s, a.encode = .ok s ↔ decode s = .ok a ∧ record a.entries = names) ∧
      ∀ e, a.push e = .error (.duplicateEntry e.name) ∧ e.name ∈ names ∨
        (∃ a', a.push e = .ok a') ∧ e.name ∉ names := by
  refine ⟨fun s => ?_, fun e => ?_⟩
  · rw [decode_eq_ok_iff]
    exact (and_iff_left h.record_eq).symm
  · rw [← h.record_eq, mem_record, push]
    by_cases he : e.name ∈ a.entries.map Entry.name
    · exact .inl ⟨dif_pos he, he⟩
    · exact .inr ⟨⟨_, dif_neg he⟩, he⟩

namespace Manifest

def notice : Entry := ⟨"META-INF/§", [0x31, 0x0A]⟩

def counter : Entry := ⟨"a/Counter.class", []⟩

def archive : Archive where
  entries := [notice, counter]
  distinct := by decide

/-- The stored form of an archive with the first entry only. -/
def stored : Bytes :=
  [0x53, 0x43, 0x41, 0x52, 1, 0, 0, 0, 1, 0, 11, 0x4D, 0x45, 0x54, 0x41, 0x2D, 0x49, 0x4E, 0x46,
    0x2F, 0xC2, 0xA7, 0, 0, 0, 2, 0x31, 0x0A]

/-- The archive is reached from a stored one that refuses an entry and takes another. -/
theorem reached : Reached archive {"a/Counter.class", "META-INF/§"} := by
  have hdecode : decode stored = .ok ⟨[notice], by decide⟩ := by decide +kernel
  have hrefuse : push ⟨[notice], by decide⟩ ⟨"META-INF/§", []⟩ =
      .error (.duplicateEntry "META-INF/§") := by decide
  have htake : push ⟨[notice], by decide⟩ counter = .ok archive := by decide
  exact ((Reached.decoded hdecode).refused hrefuse).taken htake

/-- It is stored and read back, and refuses the names of its entries. -/
theorem archive_stored_and_read : ∃ s, archive.encode = .ok s ∧ decode s = .ok archive ∧
    archive.push ⟨"a/Counter.class", [0x7B]⟩ = .error (.duplicateEntry "a/Counter.class") := by
  obtain ⟨hstored, hpush⟩ := reached.stored_iff_read
  have hencode : archive.encode = .ok (stored.take 5 ++ [0, 0, 0, 2] ++ stored.drop 9 ++
      [0, 15] ++ Bytes.ofText "a/Counter.class" ++ [0, 0, 0, 0]) := by decide +kernel
  refine ⟨_, hencode, ((hstored _).1 hencode).1, ?_⟩
  rcases hpush ⟨"a/Counter.class", [0x7B]⟩ with ⟨hrefuse, -⟩ | ⟨-, hnew⟩
  · exact hrefuse
  · exact absurd hnew (by decide)

end Manifest

end Archive

end StorageWeave
