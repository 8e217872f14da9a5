import StorageWeave.Files.Volume
import StorageWeave.Proofs.Modifiers

/-!
# The names that paths end in

The temporary file beside a path stands in the same directory under another name
(`fileName?_temporarySibling`), so it is never the path itself. On a volume, a file has the name
that every path to it ends in (`Volume.fileName?_of_fileLocation?`), so different names lead to
different files.
-/

namespace StorageWeave

namespace Text

variable {sep : Char}

theorem splitAt_ne_nil (cs : List Char) : splitAt sep cs ≠ [] := by
  cases cs with
  | nil => simp [splitAt]
  | cons c cs =>
    rw [splitAt]
    split
    · simp
    · split <;> simp

/-- A separator between two texts separates their parts. -/
theorem splitAt_append_cons (xs ys : List Char) :
    splitAt sep (xs ++ sep :: ys) = splitAt sep xs ++ splitAt sep ys := by
  induction xs with
  | nil => simp [splitAt]
  | cons x xs ih =>
    rw [List.cons_append, splitAt, splitAt, ih]
    split
    · rfl
    · rcases hparts : splitAt sep xs with _ | ⟨part, parts⟩
      · exact absurd hparts (splitAt_ne_nil xs)
      · rfl

/-- The separator is in none of the parts. -/
theorem not_mem_of_mem_splitAt {cs part : List Char} (h : part ∈ splitAt sep cs) : sep ∉ part := by
  induction cs generalizing part with
  | nil =>
    rw [List.mem_singleton.1 h]
    exact List.not_mem_nil
  | cons c cs ih =>
    rw [splitAt] at h
    split at h
    · rcases List.mem_cons.1 h with rfl | h
      · exact List.not_mem_nil
      · exact ih h
    · next hc =>
      rcases hparts : splitAt sep cs with _ | ⟨first, parts⟩
      · exact absurd hparts (splitAt_ne_nil cs)
      · rw [hparts] at h ih
        rcases List.mem_cons.1 h with rfl | h
        · rw [List.mem_cons, not_or]
          exact ⟨fun heq => hc heq.symm, ih List.mem_cons_self⟩
        · exact ih (List.mem_cons_of_mem _ h)

end Text

namespace Files

/-! ## Components -/

/-- A proper name of a file: no directory is named by it. -/
def IsName (c : String) : Prop := c ≠ "" ∧ c ≠ "." ∧ c ≠ ".."

theorem rawComponents_ne_nil (path : String) : rawComponents path ≠ [] := by
  simp [rawComponents, Text.splitAt_ne_nil]

theorem mem_rawComponents_of_mem_components {path c : String} (h : c ∈ components path) :
    c ∈ rawComponents path := by
  unfold components at h
  rcases hraw : rawComponents path with _ | ⟨first, rest⟩
  · rw [hraw] at h
    cases h
  · rw [hraw] at h
    rcases List.mem_append.1 h with h | h
    · split at h
      · cases h
      · exact List.mem_singleton.1 h ▸ List.mem_cons_self
    · exact List.mem_cons_of_mem _ ((List.mem_filter.1 h).1)

/-- A name at the end of a path counts. -/
theorem getLast?_components {path c : String} (h : (rawComponents path).getLast? = some c)
    (hc : IsName c) : (components path).getLast? = some c := by
  unfold components
  rcases hraw : rawComponents path with _ | ⟨first, rest⟩
  · rw [hraw] at h
    cases h
  · rw [hraw] at h
    rcases List.eq_nil_or_concat rest with rfl | ⟨rest, last, rfl⟩
    · obtain rfl : first = c := by simpa using h
      simp [hc.1]
    · rw [List.concat_eq_append] at h ⊢
      rw [← List.cons_append, List.getLast?_concat] at h
      obtain rfl := Option.some.inj h
      simp [hc.1, hc.2.1]

theorem fileName?_of_getLast? {path c : String} (h : (rawComponents path).getLast? = some c)
    (hc : IsName c) : fileName? path = some c := by
  simp only [fileName?, getLast?_components h hc, if_neg (not_or.2 hc.2)]

theorem fileName?_eq_some {path name : String} (h : fileName? path = some name) :
    name ∈ rawComponents path := by
  unfold fileName? at h
  split at h
  · cases h
  · next hlast =>
    split at h
    · cases h
    · cases h
      exact mem_rawComponents_of_mem_components (List.mem_of_getLast? hlast)

/-! ## The temporary sibling -/

theorem slash_not_mem_of_fileName? {path name : String} (h : fileName? path = some name) :
    '/' ∉ name.toList := by
  obtain ⟨part, hpart, rfl⟩ := List.mem_map.1 (fileName?_eq_some h)
  rw [String.toList_ofList]
  exact Text.not_mem_of_mem_splitAt hpart

theorem length_temporaryName (name : String) :
    (temporaryName name).length = name.length + 5 := by
  have hends : ".".length = 1 ∧ ".tmp".length = 4 := by decide
  rw [temporaryName, String.length_append, String.length_append, hends.1, hends.2]
  omega

theorem isName_temporaryName (name : String) : IsName (temporaryName name) := by
  have hlong : ∀ c : String, c.length < 5 → temporaryName name ≠ c := by
    rintro _ hc rfl
    rw [length_temporaryName] at hc
    omega
  exact ⟨hlong _ (by decide), hlong _ (by decide), hlong _ (by decide)⟩

theorem temporaryName_ne (name : String) : temporaryName name ≠ name := by
  intro h
  have hlength := length_temporaryName name
  rw [h] at hlength
  omega

/-- A text that ends a directory: it is empty or has a slash at its end. -/
def EndsDirectory (text : String) : Prop := text = "" ∨ ∃ before, text.toList = before ++ ['/']

theorem endsDirectory_directoryText (path : String) : EndsDirectory (directoryText path) := by
  unfold directoryText
  split
  · exact .inl rfl
  · exact .inr ⟨_, String.toList_append⟩

theorem endsDirectory_asDirectoryText (path : String) : EndsDirectory (asDirectoryText path) := by
  unfold asDirectoryText
  split
  · next h =>
    refine h.imp id fun hlast => ?_
    obtain ⟨before, hbefore⟩ := List.getLast?_eq_some_iff.1 hlast
    exact ⟨before, hbefore⟩
  · exact .inr ⟨_, String.toList_append⟩

/-- A name behind a directory is what the path ends in. -/
theorem fileName?_append {directory name : String} (hdirectory : EndsDirectory directory)
    (hslash : '/' ∉ name.toList) (hname : IsName name) :
    fileName? (directory ++ name) = some name := by
  refine fileName?_of_getLast? ?_ hname
  have hsplit : Text.splitAt '/' name.toList = [name.toList] :=
    Text.splitAt_last fun c hc heq => hslash (heq ▸ hc)
  rcases hdirectory with rfl | ⟨before, hbefore⟩
  · simp [rawComponents, hsplit]
  · rw [rawComponents, String.toList_append, hbefore, List.append_assoc, List.singleton_append,
      Text.splitAt_append_cons, hsplit]
    simp

/-- **The temporary sibling** is named after the file, or after an archive if there is none. -/
theorem fileName?_temporarySibling (path : String) : fileName? (temporarySibling path) =
    some (temporaryName ((fileName? path).getD "archive")) := by
  unfold temporarySibling
  split
  · next name hname =>
    rw [hname]
    refine fileName?_append (endsDirectory_directoryText path) ?_ (isName_temporaryName name)
    simpa [temporaryName] using slash_not_mem_of_fileName? hname
  · next hname =>
    rw [hname]
    exact fileName?_append (endsDirectory_asDirectoryText path) (by decide)
      (isName_temporaryName "archive")

theorem fileName?_temporarySibling_ne (path : String) :
    fileName? (temporarySibling path) ≠ fileName? path := by
  rw [fileName?_temporarySibling]
  rcases fileName? path with _ | name
  · simp
  · exact fun h => temporaryName_ne name (Option.some.inj h)

theorem temporarySibling_ne (path : String) : temporarySibling path ≠ path := by
  intro h
  exact fileName?_temporarySibling_ne path (congrArg fileName? h)

/-! ## Paths on a volume -/

namespace Volume

variable {v v' : Volume}

/-- Where a path with a name at its end leads, the name comes last. -/
theorem getLast?_of_follow {l l' : Location} {cs : List String} {c : String}
    (h : v.follow l cs = some l') (hlast : cs.getLast? = some c) (hc : IsName c) :
    l'.getLast? = some c := by
  obtain ⟨cs, rfl⟩ := List.getLast?_eq_some_iff.1 hlast
  induction cs generalizing l with
  | nil =>
    simp only [List.nil_append, follow, if_neg hc.2.1, if_neg hc.2.2] at h
    split at h
    · cases h
    split at h
    · cases h
    · cases h
      exact List.getLast?_concat
  | cons d cs ih =>
    rw [List.cons_append, follow] at h
    split at h
    · cases h
    have hlast' : (cs ++ [c]).getLast? = some c := List.getLast?_concat
    split at h
    · exact ih h hlast'
    split at h
    · split at h
      · cases h
      · exact ih h hlast'
    split at h
    · cases h
    · exact ih h hlast'

/-- **A file has the name** that the paths to it end in. -/
theorem fileName?_of_fileLocation? {path : String} {l : Location}
    (h : v.fileLocation? path = some l) : fileName? path = some (l.getLast?.getD "") := by
  unfold fileLocation? at h
  split at h
  · cases h
  next hdirectory =>
  obtain ⟨hlocate, -⟩ := Option.filter_eq_some_iff.1 h
  unfold locate? at hlocate
  split at hlocate
  · cases hlocate
  rcases hlast : (rawComponents path).getLast? with _ | c
  · exact absurd (List.getLast?_eq_none_iff.1 hlast) (rawComponents_ne_nil path)
  · have hc : IsName c := by
      simpa [namesDirectory, hlast, not_or, IsName] using hdirectory
    rw [fileName?_of_getLast? hlast hc,
      getLast?_of_follow hlocate (getLast?_components hlast hc) hc, Option.getD_some]

/-- Only the directories decide where paths lead. -/
theorem follow_congr (h : ∀ l, v'.node? l = some .directory ↔ v.node? l = some .directory)
    (l : Location) (cs : List String) : v'.follow l cs = v.follow l cs := by
  induction cs generalizing l with
  | nil => rfl
  | cons c cs ih => simp only [follow, ne_eq, h, ih]

theorem fileLocation?_congr
    (h : ∀ l, v'.node? l = some .directory ↔ v.node? l = some .directory) :
    v'.fileLocation? = v.fileLocation? := by
  funext path
  simp only [fileLocation?, locate?, ne_eq, follow_congr h, h]

end Volume

end Files

end StorageWeave
