import Mathlib.Data.List.TakeWhile
import StorageWeave.Bytecode.Access

/-!
# Modifiers are read back

`Access.read?_render`: the text of any word of modifiers, with or without unnamed bits, is read as
that word. Parts of the text are bare (no blank and no bar in them), so that splitting at the bars
and trimming gives them back; every part is read as the flags it was written for; and the flags of
all parts make up the word, since taking a flag out of the rest and adding it to what is collected
loses no bit.
-/

namespace StorageWeave.Text

/-- A part of a separated text: not empty, without blanks and without the separator. -/
structure IsBare (sep : Char) (part : List Char) : Prop where
  ne_nil : part ≠ []
  chars : ∀ c ∈ part, isBlank c = false ∧ c ≠ sep

theorem trim_bare {sep : Char} {before part : List Char} (after : List Char)
    (hbefore : ∀ c ∈ before, isBlank c = true) (hpart : IsBare sep part)
    (hafter : ∀ c ∈ after, isBlank c = true) : trim (before ++ (part ++ after)) = part := by
  have drop (cs rest : List Char) (hne : cs ≠ []) (h : ∀ c ∈ cs, isBlank c = false) :
      (cs ++ rest).dropWhile isBlank = cs ++ rest := by
    obtain ⟨c, cs, rfl⟩ := List.exists_cons_of_ne_nil hne
    rw [List.cons_append, List.dropWhile_cons_of_neg (by simp [h c])]
  have hchars : ∀ c ∈ part, isBlank c = false := fun c hc => (hpart.chars c hc).1
  have hreverse := drop part.reverse [] (by simpa using hpart.ne_nil) (by simpa using hchars)
  rw [List.append_nil] at hreverse
  rw [trim, List.dropWhile_append_of_pos hbefore, drop part after hpart.ne_nil hchars,
    List.reverse_append, List.dropWhile_append_of_pos (by simpa using hafter), hreverse,
    List.reverse_reverse]

/-- A text with a character that is not blank is not empty when trimmed. -/
theorem trim_ne_nil {c : Char} {cs : List Char} (hc : c ∈ cs) (hblank : isBlank c = false) :
    trim cs ≠ [] := by
  intro h
  have hdrop : ∀ x ∈ cs.dropWhile isBlank, isBlank x = true := by
    have hnil : (cs.dropWhile isBlank).reverse.dropWhile isBlank = [] := by simpa [trim] using h
    simpa using List.dropWhile_eq_nil_iff.1 hnil
  rw [← List.takeWhile_append_dropWhile (p := isBlank) (l := cs)] at hc
  rcases List.mem_append.1 hc with hc | hc
  · simp [List.mem_takeWhile_imp hc] at hblank
  · simp [hdrop c hc] at hblank

theorem splitAt_append {sep : Char} {part : List Char} (h : ∀ c ∈ part, c ≠ sep)
    (rest : List Char) : splitAt sep (part ++ sep :: rest) = part :: splitAt sep rest := by
  induction part with
  | nil => simp [splitAt]
  | cons c part ih =>
    have hc : c ≠ sep := h c (by simp)
    have ih := ih fun x hx => h x (by simp [hx])
    rw [List.cons_append, splitAt, if_neg hc, ih]

theorem splitAt_last {sep : Char} {part : List Char} (h : ∀ c ∈ part, c ≠ sep) :
    splitAt sep part = [part] := by
  induction part with
  | nil => rfl
  | cons c part ih =>
    have hc : c ≠ sep := h c (by simp)
    have ih := ih fun x hx => h x (by simp [hx])
    rw [splitAt, if_neg hc, ih]

/-- Bare parts with a blank on both sides of every separator are found again. -/
theorem map_trim_splitAt {sep : Char} (hsep : sep ≠ ' ') (before : List Char)
    (hbefore : ∀ c ∈ before, isBlank c = true ∧ c ≠ sep) {part : List Char}
    {parts : List (List Char)} (h : ∀ p ∈ part :: parts, IsBare sep p) :
    (splitAt sep (before ++ [' ', sep, ' '].intercalate (part :: parts))).map trim
      = part :: parts := by
  have hpart := h part (by simp)
  induction parts generalizing part before with
  | nil =>
    have hchars : ∀ c ∈ before ++ part, c ≠ sep := by
      intro c hc
      rcases List.mem_append.1 hc with hc | hc
      · exact (hbefore c hc).2
      · exact (hpart.chars c hc).2
    have htrim := trim_bare [] (fun c hc => (hbefore c hc).1) hpart (by simp)
    rw [List.append_nil] at htrim
    simp [splitAt_last hchars, htrim]
  | cons next parts ih =>
    have hjoin : before ++ [' ', sep, ' '].intercalate (part :: next :: parts)
        = (before ++ (part ++ [' ']))
          ++ sep :: ([' '] ++ [' ', sep, ' '].intercalate (next :: parts)) := by
      simp [List.intercalate]
    have hchars : ∀ c ∈ before ++ (part ++ [' ']), c ≠ sep := by
      intro c hc
      rcases List.mem_append.1 hc with hc | hc
      · exact (hbefore c hc).2
      · rcases List.mem_append.1 hc with hc | hc
        · exact (hpart.chars c hc).2
        · rw [List.mem_singleton.1 hc]
          exact hsep.symm
    have hblank : ∀ c ∈ [' '], isBlank c = true ∧ c ≠ sep := by
      intro c hc
      rw [List.mem_singleton.1 hc]
      exact ⟨rfl, hsep.symm⟩
    have htrim := trim_bare [' '] (fun c hc => (hbefore c hc).1) hpart
      fun c hc => (hblank c hc).1
    rw [hjoin, splitAt_append hchars, List.map_cons, htrim,
      ih [' '] hblank (fun p hp => h p (List.mem_cons_of_mem _ hp)) (h next (by simp))]

/-! ## Hexadecimal numbers -/

/-- The byte of a lower-case hexadecimal digit and its value. -/
theorem hexValue?_digitChar {k : Nat} (hk : k < 16) :
    ∃ b, String.utf8EncodeChar k.digitChar = [b] ∧ Bytes.hexValue? b = some k := by
  have hall : ∀ k < 16, (String.utf8EncodeChar k.digitChar).map Bytes.hexValue? = [some k] := by
    decide
  exact List.map_eq_singleton_iff.1 (hall k hk)

theorem hexDigits_eq (n : Nat) :
    hexDigits n = if n < 16 then [n.digitChar] else hexDigits (n / 16) ++ [(n % 16).digitChar] :=
  Nat.toDigits_eq_if (by decide)

theorem mem_hexDigits {n : Nat} {c : Char} (hc : c ∈ hexDigits n) :
    ∃ k < 16, c = k.digitChar := by
  induction n using Nat.strongRecOn with
  | ind n ih =>
    rw [hexDigits_eq] at hc
    split at hc
    · next hn => exact ⟨n, hn, List.mem_singleton.1 hc⟩
    · next hn =>
      rcases List.mem_append.1 hc with hc | hc
      · exact ih (n / 16) (by omega) hc
      · exact ⟨n % 16, by omega, List.mem_singleton.1 hc⟩

/-- The hexadecimal digits of a number are read as that number. -/
theorem hexNat?_hexDigits (n : Nat) :
    Bytes.hexNat? (Bytes.ofText (String.ofList (hexDigits n))) = some n := by
  have hfold : ((hexDigits n).flatMap String.utf8EncodeChar).foldlM
      (fun n d => (Bytes.hexValue? d).map (16 * n + ·)) 0 = some n := by
    induction n using Nat.strongRecOn with
    | ind n ih =>
      rw [hexDigits_eq]
      split
      · next hn =>
        obtain ⟨b, hb, hvalue⟩ := hexValue?_digitChar hn
        simp [hb, hvalue]
      · next hn =>
        obtain ⟨b, hb, hvalue⟩ := hexValue?_digitChar (show n % 16 < 16 by omega)
        rw [List.flatMap_append, List.foldlM_append, ih (n / 16) (by omega)]
        simp [hb, hvalue]
        omega
  have hne : ((hexDigits n).flatMap String.utf8EncodeChar).isEmpty = false := by
    rw [hexDigits_eq]
    split
    · next hn =>
      obtain ⟨b, hb, -⟩ := hexValue?_digitChar hn
      simp [hb]
    · obtain ⟨b, hb, -⟩ := hexValue?_digitChar (show n % 16 < 16 by omega)
      simp [hb]
  rw [Bytes.ofText_ofList, Bytes.hexNat?, hne, if_neg Bool.false_ne_true, hfold]

end StorageWeave.Text

namespace StorageWeave.Bytecode.Access

open Text

/-! ## Parts -/

theorem readHex?_hexDigits (w : UInt16) : readHex? (hexDigits w.toNat) = some w := by
  have hplus : ∀ rest, hexDigits w.toNat ≠ '+' :: rest := by
    intro rest h
    obtain ⟨k, hk, heq⟩ := mem_hexDigits (c := '+') (n := w.toNat) (by simp [h])
    revert heq
    have : ∀ k < 16, '+' ≠ k.digitChar := by decide
    exact this k hk
  unfold readHex?
  split
  · next rest h => exact absurd h (hplus rest)
  · simp only [hexNat?_hexDigits, if_pos w.toNat_lt]
    simp

/-- The flags of a word as parts of its text: the named ones and the rest, if there is one. -/
def parts (a : Access) : List Access :=
  (named.filter fun f => a.contains f.2).map Prod.snd
    ++ if a.unnamed = 0 then [] else [⟨a.unnamed⟩]

/-- The texts of the parts of a word. -/
def partTexts (a : Access) : List String :=
  (named.filter fun f => a.contains f.2).map Prod.fst
    ++ if a.unnamed = 0 then [] else [hexText a.unnamed]

theorem hexText_toList (w : UInt16) : (hexText w).toList = '0' :: 'x' :: hexDigits w.toNat := by
  simp [hexText]

theorem readPart?_hexText (w : UInt16) : readPart? (hexText w).toList = some ⟨w⟩ := by
  rw [hexText_toList, readPart?, readHex?_hexDigits]
  rfl

theorem readPart?_named : ∀ f ∈ named, readPart? f.1.toList = some f.2 := by decide

theorem isBare_named : ∀ f ∈ named, IsBare '|' f.1.toList := by
  have hall : ∀ f ∈ named, f.1.toList ≠ [] ∧
      f.1.toList.all (fun c => isBlank c = false ∧ c ≠ '|') = true := by
    decide
  intro f hf
  obtain ⟨hne, hchars⟩ := hall f hf
  exact ⟨hne, fun c hc => of_decide_eq_true (List.all_eq_true.1 hchars c hc)⟩

theorem isBare_hexText (w : UInt16) : IsBare '|' (hexText w).toList := by
  have hall : ∀ k < 16, isBlank k.digitChar = false ∧ k.digitChar ≠ '|' := by decide
  rw [hexText_toList]
  refine ⟨by simp, fun c hc => ?_⟩
  simp only [List.mem_cons] at hc
  rcases hc with rfl | rfl | hc
  · decide
  · decide
  · obtain ⟨k, hk, rfl⟩ := mem_hexDigits hc
    exact hall k hk

/-- Every part of the text is bare and is read as the flags that it stands for. -/
theorem partTexts_spec (a : Access) :
    (∀ s ∈ a.partTexts, IsBare '|' s.toList) ∧
      a.partTexts.map (fun s => readPart? s.toList) = a.parts.map some := by
  have hnamed : ∀ f ∈ named.filter fun f => a.contains f.2, f ∈ named :=
    fun f hf => (List.mem_filter.1 hf).1
  constructor
  · intro s hs
    rcases List.mem_append.1 hs with hs | hs
    · obtain ⟨f, hf, rfl⟩ := List.mem_map.1 hs
      exact isBare_named f (hnamed f hf)
    · split at hs
      · cases hs
      · rw [List.mem_singleton.1 hs]
        exact isBare_hexText _
  · rw [partTexts, parts, List.map_append, List.map_append, List.map_map, List.map_map]
    congr 1
    · exact List.map_congr_left fun f hf => readPart?_named f (hnamed f hf)
    · split
      · rfl
      · simp [readPart?_hexText]

/-! ## Flags -/

/-- Moving a flag from the rest to what is collected keeps all bits. -/
theorem collect_step {collected rest w : UInt16} (h : collected ||| rest = w) (f : UInt16) :
    (collected ||| (w &&& f)) ||| (rest &&& ~~~f) = w := by
  subst h
  apply UInt16.eq_of_toBitVec_eq
  simp only [UInt16.toBitVec_or, UInt16.toBitVec_and, UInt16.toBitVec_not]
  ext i hi
  simp only [BitVec.getElem_or, BitVec.getElem_and, BitVec.getElem_not]
  cases collected.toBitVec[i] <;> cases rest.toBitVec[i] <;> cases f.toBitVec[i] <;> rfl

theorem collect_all (fs : List (String × Access)) {collected rest w : UInt16}
    (h : collected ||| rest = w) :
    (fs.foldl (fun acc f => acc ||| (w &&& f.2.bits)) collected)
      ||| (fs.foldl (fun rest f => rest &&& ~~~f.2.bits) rest) = w := by
  induction fs generalizing collected rest with
  | nil => exact h
  | cons f fs ih => exact ih (collect_step h f.2.bits)

/-- A named flag is one bit, so that it is in a word as a whole or not at all. -/
theorem and_named (a : Access) :
    ∀ f ∈ named, a.bits &&& f.2.bits = if a.contains f.2 then f.2.bits else 0 := by
  have bit (i : Nat) (b : UInt16) (hb : b.toBitVec = BitVec.twoPow 16 i) :
      a.bits &&& b = if a.contains ⟨b⟩ then b else 0 := by
    have hbit : a.bits.toBitVec &&& BitVec.twoPow 16 i = BitVec.twoPow 16 i ∨
        a.bits.toBitVec &&& BitVec.twoPow 16 i = 0#16 := by
      rw [BitVec.and_twoPow]
      split
      · exact .inl rfl
      · exact .inr rfl
    simp only [contains, decide_eq_true_eq]
    split
    · assumption
    · next h =>
      rw [← UInt16.toBitVec_inj, UInt16.toBitVec_and, hb] at h ⊢
      exact hbit.resolve_left h
  intro f hf
  simp only [named, List.mem_cons, List.not_mem_nil, or_false] at hf
  rcases hf with rfl | rfl | rfl | rfl | rfl | rfl | rfl | rfl | rfl
  · exact bit 0 _ (by decide)
  · exact bit 1 _ (by decide)
  · exact bit 2 _ (by decide)
  · exact bit 3 _ (by decide)
  · exact bit 4 _ (by decide)
  · exact bit 7 _ (by decide)
  · exact bit 9 _ (by decide)
  · exact bit 10 _ (by decide)
  · exact bit 12 _ (by decide)

theorem foldl_contained (a : Access) {fs : List (String × Access)}
    (hfs : ∀ f ∈ fs, a.bits &&& f.2.bits = if a.contains f.2 then f.2.bits else 0) (acc : Access) :
    ((fs.filter fun f => a.contains f.2).map Prod.snd).foldl union acc
      = ⟨fs.foldl (fun w f => w ||| (a.bits &&& f.2.bits)) acc.bits⟩ := by
  induction fs generalizing acc with
  | nil => rfl
  | cons f fs ih =>
    have hf := hfs f (by simp)
    have ih := fun acc => ih (fun g hg => hfs g (by simp [hg])) acc
    cases hcontains : a.contains f.2 with
    | true =>
      rw [hcontains, if_pos rfl] at hf
      simp only [List.filter_cons, hcontains, if_true, List.map_cons, List.foldl_cons, hf]
      exact ih (acc.union f.2)
    | false =>
      rw [hcontains, if_neg Bool.false_ne_true] at hf
      simp only [List.filter_cons, hcontains, Bool.false_eq_true, if_false, List.foldl_cons, hf,
        UInt16.or_zero]
      exact ih acc

/-- The parts of a word make it up. -/
theorem foldl_parts (a : Access) : a.parts.foldl union .none = a := by
  have hall : named.foldl (fun w f => w ||| (a.bits &&& f.2.bits)) 0 ||| a.unnamed = a.bits :=
    collect_all named (UInt16.zero_or)
  rw [parts, List.foldl_append, foldl_contained a a.and_named]
  split
  · next hrest =>
    rw [hrest, UInt16.or_zero] at hall
    exact congrArg Access.mk hall
  · exact congrArg Access.mk hall

/-! ## The text -/

theorem foldlM_readPart? {texts : List (List Char)} {flags : List Access}
    (h : texts.map readPart? = flags.map some) (acc : Access) :
    texts.foldlM (fun a part => (readPart? part).map a.union) acc
      = some (flags.foldl union acc) := by
  induction texts generalizing flags acc with
  | nil =>
    obtain rfl : flags = [] := by simpa using h.symm
    rfl
  | cons text texts ih =>
    obtain ⟨f, flags, rfl⟩ : ∃ f fs, flags = f :: fs := by
      cases flags with
      | nil => simp at h
      | cons f fs => exact ⟨f, fs, rfl⟩
    simp only [List.map_cons, List.cons.injEq] at h
    rw [List.foldlM_cons, h.1]
    exact ih h.2 (acc.union f)

/-- The text of modifiers is read as these modifiers. -/
theorem read?_render (a : Access) : read? a.render = some a := by
  obtain ⟨hbare, hread⟩ := a.partTexts_spec
  have hrender : a.render.toList = [' ', '|', ' '].intercalate (a.partTexts.map String.toList) :=
    String.toList_intercalate
  have hfold := foldlM_readPart? ((List.map_map ..).trans hread) .none
  rw [foldl_parts] at hfold
  replace hbare : ∀ p ∈ a.partTexts.map String.toList, IsBare '|' p := by simpa using hbare
  generalize a.partTexts.map String.toList = texts at hrender hfold hbare
  generalize a.render = s at hrender ⊢
  cases texts with
  | nil =>
    unfold read?
    rw [hrender]
    exact hfold
  | cons text texts =>
    have hsplit := map_trim_splitAt (by decide) [] (by simp) hbare
    rw [List.nil_append, ← hrender] at hsplit
    have htrim : trim s.toList ≠ [] := by
      obtain ⟨c, hc⟩ := List.exists_mem_of_ne_nil _ (hbare text (by simp)).ne_nil
      refine trim_ne_nil (c := c) ?_ ((hbare text (by simp)).chars c hc).1
      rw [hrender]
      cases texts <;> simp [List.intercalate, hc]
    rw [← hsplit, List.foldlM_map] at hfold
    simpa [read?, htrim] using hfold

end StorageWeave.Bytecode.Access
