import StorageWeave.Proofs.Container

/-!
# Archives that are cut or continued

A reader of the format is driven by the bytes it has read: `Follows read b next` says that `read`
goes through the bytes `b` and on with `next`, whatever comes behind them, and finds its input
truncated wherever it ends inside `b`. Readers that follow each other do so over the bytes of both
(`Follows.trans`), so the reader of an entry does, and by induction on the number of entries the
reader of an archive. A stored archive that is cut anywhere is therefore truncated, and one that
goes on has trailing bytes (`decode_cut_and_continued`).
-/

namespace StorageWeave.Archive

/--
A reader goes through the bytes `b` and on with the reader `next`. Where its input ends inside `b`,
it finds it truncated.
-/
structure Follows {α : Type} (read : Bytes → Except FormatError α) (b : Bytes)
    (next : Bytes → Except FormatError α) : Prop where
  through : ∀ rest, read (b ++ rest) = next rest
  cut : ∀ p, p <+: b → p ≠ b → read p = .error .truncated

namespace Follows

variable {α : Type} {b b' : Bytes} {read next last : Bytes → Except FormatError α}

theorem nil (read : Bytes → Except FormatError α) : Follows read [] read where
  through _ := rfl
  cut _ hp hne := absurd (List.prefix_nil.1 hp) hne

/-- A prefix of two parts ends in the first of them or in the second. -/
theorem trans (h : Follows read b next) (h' : Follows next b' last) :
    Follows read (b ++ b') last where
  through rest := by rw [List.append_assoc, h.through, h'.through]
  cut p hp hne := by
    by_cases hlength : p.length < b.length
    · have hpb : p <+: b :=
        List.prefix_of_prefix_length_le hp (List.prefix_append b b') (Nat.le_of_lt hlength)
      refine h.cut p hpb ?_
      rintro rfl
      exact absurd hlength (Nat.lt_irrefl _)
    · obtain ⟨q, rfl⟩ : b <+: p :=
        List.prefix_of_prefix_length_le (List.prefix_append b b') hp (Nat.not_lt.1 hlength)
      rw [h.through]
      refine h'.cut q ((List.prefix_append_right_inj b).1 hp) ?_
      rintro rfl
      exact hne rfl

/-- What is done with the result of a reader comes behind the bytes that it goes through. -/
theorem bind {β : Type} {x : Bytes → α} (h : Follows read b fun rest => .ok (x rest))
    (k : α → Except FormatError β) :
    Follows (fun s => read s >>= k) b fun rest => k (x rest) where
  through rest := congrArg (· >>= k) (h.through rest)
  cut p hp hne := congrArg (· >>= k) (h.cut p hp hne)

end Follows

/-! ## Parts of the format -/

theorem follows_takeBytes {n : Nat} {b : Bytes} (hb : b.length = n) :
    Follows (takeBytes n) b fun rest => .ok (b, rest) where
  through _ := takeBytes_eq_ok.2 ⟨hb, rfl⟩
  cut p hp hne := by
    have hshort : p.length < n := by
      refine Nat.lt_of_le_of_ne (hb ▸ hp.length_le) fun hlength => hne ?_
      exact hp.eq_of_length (hlength.trans hb.symm)
    exact if_neg (Nat.not_le.2 hshort)

theorem follows_takeNat {width n : Nat} (hn : n < 256 ^ width) :
    Follows (takeNat width) (Bytes.ofNat width n) fun rest => .ok (n, rest) where
  through _ := takeNat_eq_ok.2 ⟨hn, rfl⟩
  cut := ((follows_takeBytes (Bytes.length_ofNat width n)).bind _).cut

/-- **An entry** decides by its bytes where it ends. -/
theorem Entry.follows_decode {e : Entry} {b : Bytes} (hb : e.encode = .ok b) :
    Follows Entry.decode b fun rest => .ok (e, rest) := by
  obtain ⟨hname, hdata, rfl⟩ := Entry.encode_eq_ok.1 hb
  simp only [List.append_assoc]
  refine ((follows_takeNat hname).bind _).trans (((follows_takeBytes rfl).bind _).trans ?_)
  simp only [Bytes.text?_ofText]
  exact ((follows_takeNat hdata).bind _).trans ((follows_takeBytes rfl).bind _)

/-! ## Archives -/

/-- **Entries** are gone through one after the other. -/
theorem follows_decodeEntries {es : List Entry} {bs : List Bytes} {a a' : Archive}
    (hpush : a.pushAll es = .ok a') (hbs : es.mapM Entry.encode = .ok bs) :
    Follows (decodeEntries es.length a) bs.flatten fun rest => .ok (a', rest) := by
  induction es generalizing a bs with
  | nil =>
    cases hpush
    cases hbs
    exact .nil _
  | cons e es ih =>
    rw [pushAll, List.foldlM_cons] at hpush
    obtain ⟨a₁, ha₁, hpush⟩ := Weaving.bind_eq_ok.1 hpush
    rw [List.mapM_cons] at hbs
    obtain ⟨b, hb, hbs⟩ := Weaving.bind_eq_ok.1 hbs
    obtain ⟨bs, hrest, hbs⟩ := Weaving.bind_eq_ok.1 hbs
    cases hbs
    rw [List.flatten_cons]
    refine ((Entry.follows_decode hb).bind _).trans ?_
    simp only [ha₁]
    exact ih hpush hrest

/-- **An archive** is gone through to its end, where nothing may come behind it. -/
theorem follows_decode {a : Archive} {s : Bytes} (h : decode s = .ok a) :
    Follows decode s fun rest => if rest.isEmpty then .ok a else .error .trailingBytes := by
  obtain ⟨bs, hlength, hbs, rfl⟩ := encode_eq_ok.1 (decode_eq_ok_iff.1 h)
  have hentries := follows_decodeEntries (pushAll_eq_ok.2 rfl : empty.pushAll a.entries = .ok a) hbs
  refine ((follows_takeBytes rfl).bind _).trans ?_
  simp only [ne_eq, not_true_eq_false, if_false]
  refine ((follows_takeNat (by decide)).bind _).trans ?_
  simp only [not_true_eq_false, if_false]
  exact ((follows_takeNat hlength).bind _).trans (hentries.bind _)

/--
**Cuts and additions are noticed.** Of a byte string that is read as an archive, every strict prefix
is truncated and every strict extension has trailing bytes.
-/
theorem decode_cut_and_continued {a : Archive} {s : Bytes} (h : decode s = .ok a) :
    (∀ p, p <+: s → p ≠ s → decode p = .error .truncated) ∧
      ∀ t, s <+: t → t ≠ s → decode t = .error .trailingBytes := by
  have hfollows := follows_decode h
  refine ⟨hfollows.cut, ?_⟩
  rintro _ ⟨rest, rfl⟩ hne
  have hrest : rest.isEmpty = false := by
    cases rest with
    | nil => exact absurd (List.append_nil s) hne
    | cons => rfl
  rw [hfollows.through, hrest]
  rfl

/-- An archive is truncated behind its head and without its last byte, and takes no byte more. -/
theorem Manifest.stored_cut_and_continued :
    decode Manifest.stored = .ok ⟨[Manifest.notice], by decide⟩ ∧
    decode (Manifest.stored.take 9) = .error .truncated ∧
    decode (Manifest.stored.take 27) = .error .truncated ∧
    decode (Manifest.stored ++ [0]) = .error .trailingBytes := by
  have hdecode : decode Manifest.stored = .ok ⟨[Manifest.notice], by decide⟩ := by decide +kernel
  obtain ⟨hcut, hcontinued⟩ := decode_cut_and_continued hdecode
  exact ⟨hdecode, hcut _ (List.take_prefix 9 _) (by decide),
    hcut _ (List.take_prefix 27 _) (by decide), hcontinued _ (List.prefix_append _ _) (by decide)⟩

end StorageWeave.Archive
