/-!
# Byte strings

Byte strings are lists of bytes. Texts go to bytes by UTF-8 and come back only from well-formed
bytes, so that `Bytes.text?` undoes `Bytes.ofText`.
-/

namespace StorageWeave

/-- A byte string. -/
abbrev Bytes : Type := List UInt8

namespace Bytes

/-- The UTF-8 bytes of a text. -/
def ofText (s : String) : Bytes := s.toUTF8.data.toList

/-- The text with the given UTF-8 bytes, if they are well formed. -/
def text? (b : Bytes) : Option String := String.fromUTF8? ⟨b.toArray⟩

/-- Bytes are a text exactly if they are the bytes of that text. -/
theorem text?_eq_some_iff {b : Bytes} {s : String} : text? b = some s ↔ b = ofText s := by
  unfold text? String.fromUTF8? ofText String.toUTF8
  constructor
  · intro h
    split at h
    · cases h
      rfl
    · cases h
  · rintro rfl
    have hvalid : (ByteArray.mk s.toByteArray.data.toList.toArray).IsValidUTF8 := s.isValidUTF8
    rw [dif_pos hvalid]
    rfl

@[simp] theorem text?_ofText (s : String) : text? (ofText s) = some s := text?_eq_some_iff.2 rfl

@[simp] theorem ofText_append (s t : String) : ofText (s ++ t) = ofText s ++ ofText t := by
  simp [ofText, String.toUTF8]

@[simp] theorem ofText_push (s : String) (c : Char) :
    ofText (s.push c) = ofText s ++ String.utf8EncodeChar c := by
  simp [ofText, String.toUTF8, List.utf8Encode]

@[simp] theorem ofText_ofList (cs : List Char) :
    ofText (String.ofList cs) = cs.flatMap String.utf8EncodeChar := by
  simp [ofText, String.toUTF8, List.utf8Encode]

/-- The lower-case hexadecimal digit of a number below sixteen. -/
def hexDigit (n : Nat) : Char := if n < 10 then Char.ofNat (48 + n) else Char.ofNat (87 + n)

/-- Two hexadecimal digits for every byte. -/
def hex (b : Bytes) : String :=
  String.ofList (b.flatMap fun x => [hexDigit (x.toNat / 16), hexDigit (x.toNat % 16)])

/-- The value of a hexadecimal digit of either case. -/
def hexValue? (b : UInt8) : Option Nat :=
  let n := b.toNat
  if 48 ≤ n ∧ n < 58 then some (n - 48)
  else if 97 ≤ n ∧ n < 103 then some (n - 87)
  else if 65 ≤ n ∧ n < 71 then some (n - 55)
  else none

/-- The number with the given hexadecimal digits; at least one is needed. -/
def hexNat? (ds : Bytes) : Option Nat :=
  if ds.isEmpty then none
  else ds.foldlM (fun n d => (hexValue? d).map (16 * n + ·)) 0

/-- A number in big-endian order on `width` bytes. -/
def ofNat (width n : Nat) : Bytes :=
  match width with
  | 0 => []
  | w + 1 => ofNat w (n / 256) ++ [n.toUInt8]

/-- The number with the given big-endian bytes. -/
def toNat (b : Bytes) : Nat := b.foldl (fun n x => 256 * n + x.toNat) 0

@[simp] theorem length_ofNat (width n : Nat) : (ofNat width n).length = width := by
  induction width generalizing n with
  | zero => rfl
  | succ w ih => simp [ofNat, ih]

/-- Big-endian bytes give back the number when it fits. -/
theorem toNat_ofNat (width n : Nat) (h : n < Nat.pow 256 width) :
    toNat (ofNat width n) = n := by
  induction width generalizing n with
  | zero =>
    obtain rfl : n = 0 := Nat.lt_one_iff.1 h
    rfl
  | succ w ih =>
    have small : n / 256 < Nat.pow 256 w := (Nat.div_lt_iff_lt_mul (by decide)).2 h
    have := ih (n / 256) small
    simp only [toNat] at this
    simp only [toNat, ofNat, List.foldl_append, List.foldl_cons, List.foldl_nil, this]
    simp only [Nat.toUInt8_eq, UInt8.toNat_ofNat']
    omega

end Bytes

end StorageWeave
