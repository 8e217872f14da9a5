import StorageWeave.Json.Basic
import StorageWeave.Numeric.Shortest

/-!
# Numbers in JSON

A written number is read as an integer of sixty-four bits where it is one, and as a binary number
otherwise. The binary number is formed from the digits that fit a word of sixty-four bits, rounded
once, and scaled by one rounded power of ten; numbers beyond the finite range are refused.

Binary numbers are written with their shortest digits, positionally in a range of exponents that
the format chooses and with an exponent outside it.
-/

namespace StorageWeave.Json

open Numeric

/-- What a written number stands for. -/
inductive Number where
  | natural (n : UInt64)
  /-- A number below zero. -/
  | negative (z : Int64)
  | real (x : Binary64)
  deriving DecidableEq, Repr

/-- The greatest word. -/
def maxWord : Nat := 0xffffffffffffffff

/-- Appends digits to a number as long as it fits a word, and returns the digits that do not. -/
def absorbDigits (n : Nat) : List Digit → Nat × List Digit
  | [] => (n, [])
  | d :: ds => if 10 * n + d.val ≤ maxWord then absorbDigits (10 * n + d.val) ds else (n, d :: ds)

/-- Divides by `10 ^ k`, at most `10 ^ 308` at a time. -/
def scaleDown (x : Binary64) (k : Nat) : Binary64 :=
  if k ≤ 308 then x.div (Binary64.ofNat (Nat.pow 10 k))
  else if x.isZero then x
  else scaleDown (x.div (Binary64.ofNat (Nat.pow 10 308))) (k - 308)
  termination_by k

/-- Multiplies by `10 ^ k`, unless the product leaves the finite range. -/
def scaleUp? (x : Binary64) (k : Nat) : Option Binary64 :=
  if k ≤ 308 then
    let y := x.mul (Binary64.ofNat (Nat.pow 10 k))
    if y.isInfinite then none else some y
  else if x.isZero then some x
  else none

/-- The binary number of a word's digits and a decimal exponent. -/
def scale? (significand : Nat) (exponent : Int) : Option Binary64 :=
  let x := Binary64.ofNat significand
  if 0 ≤ exponent then scaleUp? x exponent.toNat else some (scaleDown x (-exponent).toNat)

/-- The greatest number of thirty-two bits with a sign. -/
def maxExponent : Nat := 0x7fffffff

/-- The magnitude of a binary number with an exponent part added to the exponent of its digits. -/
def scaleBy? (significand : Nat) (exponent : Int) : Option Exponent → Option Binary64
  | none => scale? significand exponent
  | some e =>
    let written := ofDigits e.digits
    let up := e.sign ≠ .minus
    if maxExponent < written then
      if significand ≠ 0 ∧ up then none else some Binary64.zero
    else
      let sum : Int := if up then exponent + written else exponent - written
      scale? significand (max (-maxExponent - 1) (min sum maxExponent))

/-- Puts a sign on a magnitude. -/
def withSign (negative : Bool) (x : Binary64) : Binary64 := if negative then x.neg else x

/-- Reads a number; `none` when it is beyond the finite range. -/
def Numeral.number? (n : Numeral) : Option Number :=
  let (word, dropped) := absorbDigits 0 n.whole
  if n.fraction.isEmpty ∧ n.exponent.isNone ∧ dropped.isEmpty then
    if n.negative then
      if word = 0 ∨ 0x8000000000000000 < word then some (.real (Binary64.ofNat word).neg)
      else some (.negative (Int64.ofInt (-word)))
    else some (.natural word.toUInt64)
  else
    let (word, unread) := absorbDigits word n.fraction
    let exponent : Int := dropped.length - (n.fraction.length - unread.length : Nat)
    (scaleBy? word exponent n.exponent).map fun x => .real (withSign n.negative x)

/-! ## Targets -/

/-- The natural number below a bound, which only an integer gives. -/
def natBelow? (bound : Nat) : Json → Option Nat
  | .number n =>
    match n.number? with
    | some (.natural k) => if k.toNat < bound then some k.toNat else none
    | _ => none
  | _ => none

/-- The integer of a range, which only an integer gives. -/
def intBetween? (least greatest : Int) : Json → Option Int
  | .number n =>
    let z := match n.number? with
      | some (.natural k) => some (k.toNat : Int)
      | some (.negative z) => some z.toInt
      | _ => none
    z.filter fun z => least ≤ z ∧ z ≤ greatest
  | _ => none

/-- A word of sixteen bits. -/
def uint16? (j : Json) : Option UInt16 := (j.natBelow? 0x10000).map Nat.toUInt16

/-- A word of sixty-four bits. -/
def uint64? (j : Json) : Option UInt64 := (j.natBelow? 0x10000000000000000).map Nat.toUInt64

/-- An integer of thirty-two bits. -/
def int32? (j : Json) : Option Int32 :=
  (j.intBetween? (-0x80000000) 0x7fffffff).map Int32.ofInt

/-- An integer of sixty-four bits. -/
def int64? (j : Json) : Option Int64 :=
  (j.intBetween? (-0x8000000000000000) 0x7fffffffffffffff).map Int64.ofInt

/-- The nearest binary number of sixty-four bits. -/
def binary64? : Json → Option Binary64
  | .number n => n.number?.map fun
    | .natural k => Binary64.ofNat k.toNat
    | .negative z => Binary64.ofRatio true z.toInt.natAbs 1
    | .real x => x
  | _ => none

/-- The nearest binary number of thirty-two bits; what is too large becomes infinite. -/
def binary32? : Json → Option Binary32
  | .number n => n.number?.map fun
    | .natural k => Binary32.ofRatio false k.toNat 1
    | .negative z => Binary32.ofRatio true z.toInt.natAbs 1
    | .real x => x.narrow
  | _ => none

/-! ## Writing -/

/-- A natural number. -/
def ofNat (n : Nat) : Json := .number ⟨false, digits n, [], none⟩

/-- An integer. -/
def ofInt (z : Int) : Json := .number ⟨z < 0, digits z.natAbs, [], none⟩

/-- The decimal exponents at which a number is written positionally. -/
structure PositionalRange where
  least : Int
  greatest : Int
  deriving DecidableEq, Repr

/-- A decimal with its point among its digits and at least one digit after the point. -/
def positional (negative : Bool) (d : Decimal) : Numeral :=
  if d.exponent < 0 then
    ⟨negative, [Digit.zero], List.replicate (-d.exponent - 1).toNat Digit.zero ++ d.digits, none⟩
  else
    let places := d.exponent.toNat + 1
    let whole := d.digits.take places ++ List.replicate (places - d.digits.length) Digit.zero
    let fraction := d.digits.drop places
    ⟨negative, whole, if fraction.isEmpty then [Digit.zero] else fraction, none⟩

/-- A decimal with one digit before the point and a signed exponent. -/
def scientific (negative : Bool) (d : Decimal) : Numeral :=
  ⟨negative, d.digits.take 1, d.digits.drop 1,
    some ⟨if d.exponent < 0 then .minus else .plus, digits d.exponent.natAbs⟩⟩

/-- The text of a binary number; only finite numbers have one. -/
def ofDatum (f : Format) (range : PositionalRange) : Datum → Json
  | .nan => .null
  | .infinite _ => .null
  | .finite negative m q =>
    if m = 0 then .number ⟨negative, [Digit.zero], [Digit.zero], none⟩
    else
      let d := f.shortest .toEven m q
      .number (if range.least ≤ d.exponent ∧ d.exponent ≤ range.greatest then positional negative d
        else scientific negative d)

/-- A number of thirty-two bits is written positionally from `0.000001` up to thirteen places. -/
def ofBinary32 (x : Binary32) : Json := ofDatum .binary32 ⟨-6, 12⟩ x.datum

/-- A number of sixty-four bits is written positionally from `0.00001` up to sixteen places. -/
def ofBinary64 (x : Binary64) : Json := ofDatum .binary64 ⟨-5, 15⟩ x.datum

end StorageWeave.Json
