import StorageWeave.Bytes
import StorageWeave.Numeric.Digits

/-!
# JSON tokens

The lexical half of JSON. Reading is strict about the grammar and says nothing about meaning: a
number is kept with its digits, and a string whose escapes or bytes form no text is kept as a token
without a text, so that a value nobody looks at may hold one.

A token is never empty (`Token.length_read?`), which is what makes reading end.
-/

namespace StorageWeave.Json

open Numeric

/-- How the exponent of a number is signed. -/
inductive ExponentSign where
  | bare
  | plus
  | minus
  deriving DecidableEq, Repr

/-- The exponent of a number as written. -/
structure Exponent where
  sign : ExponentSign
  digits : List Digit
  deriving DecidableEq, Repr

/-- A number as written; an empty fraction stands for no fraction. -/
structure Numeral where
  negative : Bool
  whole : List Digit
  fraction : List Digit := []
  exponent : Option Exponent := none
  deriving DecidableEq, Repr

/-- A string token has a text unless its escapes or bytes form none. -/
abbrev Text : Type := Option String

/-- The lexical elements of JSON. -/
inductive Token where
  | null
  | bool (value : Bool)
  | number (value : Numeral)
  | string (value : Text)
  | openArray
  | closeArray
  | openObject
  | closeObject
  | comma
  | colon
  deriving DecidableEq, Repr

/-! ## Numbers -/

/-- Splits off the digits at the front. -/
def takeDigits : Bytes → List Digit × Bytes
  | [] => ([], [])
  | b :: rest =>
    match Digit.ofByte? b with
    | some d =>
      let (ds, rest) := takeDigits rest
      (d :: ds, rest)
    | none => ([], b :: rest)

/-- The whole part: one zero, or digits that do not start with a zero. -/
def readWhole? (s : Bytes) : Option (List Digit × Bytes) :=
  match s with
  | 0x30 :: rest => some ([0], rest)
  | _ =>
    let (ds, rest) := takeDigits s
    if ds.isEmpty then none else some (ds, rest)

/-- The fraction, if there is a point; digits must follow it. -/
def readFraction? (s : Bytes) : Option (List Digit × Bytes) :=
  match s with
  | 0x2E :: rest =>
    let (ds, rest) := takeDigits rest
    if ds.isEmpty then none else some (ds, rest)
  | _ => some ([], s)

/-- The sign of an exponent. -/
def readExponentSign (s : Bytes) : ExponentSign × Bytes :=
  match s with
  | 0x2B :: rest => (.plus, rest)
  | 0x2D :: rest => (.minus, rest)
  | _ => (.bare, s)

/-- The digits of an exponent after its mark. -/
def readExponentDigits? (s : Bytes) : Option (Option Exponent × Bytes) :=
  let (sign, rest) := readExponentSign s
  let (ds, rest) := takeDigits rest
  if ds.isEmpty then none else some (some ⟨sign, ds⟩, rest)

/-- The exponent, if there is a mark; digits must follow it. -/
def readExponent? (s : Bytes) : Option (Option Exponent × Bytes) :=
  match s with
  | 0x65 :: rest => readExponentDigits? rest
  | 0x45 :: rest => readExponentDigits? rest
  | _ => some (none, s)

/-- A number after its sign. -/
def readNumeral? (negative : Bool) (s : Bytes) : Option (Numeral × Bytes) := do
  let (whole, s) ← readWhole? s
  let (fraction, s) ← readFraction? s
  let (exponent, s) ← readExponent? s
  return (⟨negative, whole, fraction, exponent⟩, s)

/-! ## Strings -/

/-- A piece of a string: a byte of text, or a code unit given by a numeric escape. -/
inductive Piece where
  | byte (b : UInt8)
  | unit (code : Nat)
  deriving DecidableEq, Repr

/-- The byte of a one-letter escape. -/
def shortEscape? (b : UInt8) : Option UInt8 :=
  match b with
  | 0x22 => some 0x22
  | 0x5C => some 0x5C
  | 0x2F => some 0x2F
  | 0x62 => some 0x08
  | 0x66 => some 0x0C
  | 0x6E => some 0x0A
  | 0x72 => some 0x0D
  | 0x74 => some 0x09
  | _ => none

/-- Reads the pieces of a string up to its closing quote; control characters are refused. -/
def readPieces? (acc : List Piece) : Bytes → Option (List Piece × Bytes)
  | [] => none
  | 0x22 :: rest => some (acc.reverse, rest)
  | 0x5C :: 0x75 :: a :: b :: c :: d :: rest =>
    match Bytes.hexNat? [a, b, c, d] with
    | some code => readPieces? (.unit code :: acc) rest
    | none => none
  | 0x5C :: e :: rest =>
    match shortEscape? e with
    | some b => readPieces? (.byte b :: acc) rest
    | none => none
  | b :: rest => if b < 0x20 ∨ b = 0x5C then none else readPieces? (.byte b :: acc) rest

/-- The UTF-8 bytes of a code point that is no surrogate. -/
def encodePoint (code : Nat) : Bytes := String.utf8EncodeChar (Char.ofNat code)

/-- The bytes of the pieces, where a high surrogate needs a low one right after it. -/
def joinPieces? : List Piece → Option Bytes
  | [] => some []
  | .byte b :: rest => (joinPieces? rest).map (b :: ·)
  | .unit code :: rest =>
    if code < 0xD800 ∨ 0xDFFF < code then (joinPieces? rest).map (encodePoint code ++ ·)
    else
      match rest with
      | .unit low :: rest =>
        if code < 0xDC00 ∧ 0xDC00 ≤ low ∧ low ≤ 0xDFFF then
          (joinPieces? rest).map
            (encodePoint (0x10000 + (code - 0xD800) * 0x400 + (low - 0xDC00)) ++ ·)
        else none
      | _ => none

/-- The text of a string's pieces, if they form one. -/
def textOfPieces (pieces : List Piece) : Text := (joinPieces? pieces).bind Bytes.text?

/-- A string after its opening quote. -/
def readText? (s : Bytes) : Option (Text × Bytes) :=
  (readPieces? [] s).map fun r => (textOfPieces r.1, r.2)

/-! ## Tokens -/

/-- What follows an expected spelling. -/
def afterSpelling? (spelling s : Bytes) : Option Bytes :=
  match spelling, s with
  | [], s => some s
  | _ :: _, [] => none
  | a :: spelling, b :: s => if a = b then afterSpelling? spelling s else none

/-- Reads the token that starts with `b`. -/
def Token.read? (b : UInt8) (rest : Bytes) : Option (Token × Bytes) :=
  match b with
  | 0x6E => (afterSpelling? [0x75, 0x6C, 0x6C] rest).map (.null, ·)
  | 0x74 => (afterSpelling? [0x72, 0x75, 0x65] rest).map (.bool true, ·)
  | 0x66 => (afterSpelling? [0x61, 0x6C, 0x73, 0x65] rest).map (.bool false, ·)
  | 0x22 => (readText? rest).map fun r => (.string r.1, r.2)
  | 0x5B => some (.openArray, rest)
  | 0x5D => some (.closeArray, rest)
  | 0x7B => some (.openObject, rest)
  | 0x7D => some (.closeObject, rest)
  | 0x2C => some (.comma, rest)
  | 0x3A => some (.colon, rest)
  | 0x2D => (readNumeral? true rest).map fun r => (.number r.1, r.2)
  | _ => (readNumeral? false (b :: rest)).map fun r => (.number r.1, r.2)

/-- The four blanks of JSON. -/
def isBlank (b : UInt8) : Bool := b = 0x20 ∨ b = 0x0A ∨ b = 0x0D ∨ b = 0x09

/-! ## Reading makes progress -/

theorem length_takeDigits (s : Bytes) : (takeDigits s).2.length ≤ s.length := by
  induction s with
  | nil => simp [takeDigits]
  | cons b rest ih =>
    rw [takeDigits]
    split
    · simpa using Nat.le_succ_of_le ih
    · simp

theorem length_takeDigits_add (s : Bytes) :
    (takeDigits s).1.length + (takeDigits s).2.length = s.length := by
  induction s with
  | nil => simp [takeDigits]
  | cons b rest ih =>
    rw [takeDigits]
    split
    · simp; omega
    · simp

theorem length_readWhole? {s : Bytes} {r : List Digit × Bytes} (h : readWhole? s = some r) :
    r.2.length < s.length := by
  unfold readWhole? at h
  split at h
  · cases h; simp
  · have := length_takeDigits_add s
    grind [List.length_pos_iff, List.isEmpty_iff]

theorem length_readFraction? {s : Bytes} {r : List Digit × Bytes} (h : readFraction? s = some r) :
    r.2.length ≤ s.length := by
  unfold readFraction? at h
  split at h
  · next rest => have := length_takeDigits rest; grind
  · cases h; simp

theorem length_readExponentSign (s : Bytes) : (readExponentSign s).2.length ≤ s.length := by
  unfold readExponentSign
  split <;> simp

theorem length_readExponentDigits? {s : Bytes} {r : Option Exponent × Bytes}
    (h : readExponentDigits? s = some r) : r.2.length ≤ s.length := by
  unfold readExponentDigits? at h
  have := length_readExponentSign s
  have := length_takeDigits (readExponentSign s).2
  grind

theorem length_readExponent? {s : Bytes} {r : Option Exponent × Bytes}
    (h : readExponent? s = some r) : r.2.length ≤ s.length := by
  unfold readExponent? at h
  split at h
  · exact Nat.le_succ_of_le (length_readExponentDigits? h)
  · exact Nat.le_succ_of_le (length_readExponentDigits? h)
  · cases h; simp

theorem length_readNumeral? {negative : Bool} {s : Bytes} {r : Numeral × Bytes}
    (h : readNumeral? negative s = some r) : r.2.length < s.length := by
  simp only [readNumeral?, Option.bind_eq_bind, Option.bind_eq_some_iff, Option.pure_def,
    Option.some.injEq] at h
  obtain ⟨w, hw, f, hf, e, he, rfl⟩ := h
  have := length_readWhole? hw
  have := length_readFraction? hf
  have := length_readExponent? he
  simp only at *
  omega

theorem length_readPieces? {acc : List Piece} {s : Bytes} {r : List Piece × Bytes}
    (h : readPieces? acc s = some r) : r.2.length ≤ s.length := by
  fun_induction readPieces? acc s with
  | case1 => simp at h
  | case2 => cases h; simp
  | case3 acc a b c d rest code hc ih => have := ih h; simp; omega
  | case4 => simp at h
  | case5 acc e rest _ b he ih => have := ih h; simp; omega
  | case6 => simp at h
  | case7 => simp at h
  | case8 acc b rest _ _ _ _ ih => have := ih h; simp; omega

theorem length_afterSpelling? {spelling s r : Bytes} (h : afterSpelling? spelling s = some r) :
    r.length ≤ s.length := by
  fun_induction afterSpelling? spelling s with
  | case1 => simp_all
  | case2 => simp at h
  | case3 spelling b s ih => have := ih h; simp; omega
  | case4 => simp at h

/-- After a token, no more is left than what followed its first byte. -/
theorem Token.length_read? {b : UInt8} {rest : Bytes} {r : Token × Bytes}
    (h : Token.read? b rest = some r) : r.2.length ≤ rest.length := by
  unfold Token.read? at h
  split at h
  all_goals first
    | (cases h; exact Nat.le_refl _)
    | (obtain ⟨x, hx, rfl⟩ := Option.map_eq_some_iff.1 h; exact length_afterSpelling? hx)
    | (obtain ⟨x, hx, rfl⟩ := Option.map_eq_some_iff.1 h
       obtain ⟨y, hy, rfl⟩ := Option.map_eq_some_iff.1 hx
       exact length_readPieces? hy)
    | (obtain ⟨x, hx, rfl⟩ := Option.map_eq_some_iff.1 h
       have := length_readNumeral? hx
       simp at this ⊢
       omega)

end StorageWeave.Json
