import Mathlib.Tactic.SplitIfs
import StorageWeave.Json.Printer

/-!
# Written values are read back

`parse?_render`: the text of a value is read as that value, if every string in it has a text and
every numeral has the shape that the grammar asks for (`IsWritable`). Writing appends to a text and
reading runs a machine over the tokens of bytes, so the two are first brought together:
`ofText_write` gives the bytes of a written value by recursion on the value (`spelling`), and
`readFrom?_spelling` follows the machine along these bytes. It leaves the machine with the value
complete, whatever containers are open around it and whatever follows, as long as what follows
cannot be part of a number (`Stops`).
-/

namespace StorageWeave.Numeric

/-- The byte of a digit. -/
def Digit.byte (d : Digit) : UInt8 := UInt8.ofNat (48 + d.val)

@[simp] theorem Digit.ofByte?_byte (d : Digit) : Digit.ofByte? d.byte = some d := by
  revert d
  decide

/-- A byte that is read as no digit is the byte of none. -/
theorem Digit.byte_ne (d : Digit) {b : UInt8} (hb : Digit.ofByte? b = none) : d.byte ≠ b := by
  rintro rfl
  simp at hb

@[simp] theorem ofText_digitText (ds : List Digit) :
    Bytes.ofText (digitText ds) = ds.map Digit.byte := by
  have hchar : ∀ d : Digit, String.utf8EncodeChar d.char = [d.byte] := by decide
  simp [digitText, List.flatMap_map, hchar, ← List.map_eq_flatMap]

end StorageWeave.Numeric

namespace StorageWeave.Json

open Numeric

/-! ## Numerals -/

/-- The bytes after which a number has ended: nothing, or what follows a value in a container. -/
def Stops (rest : Bytes) : Prop := ∀ b ∈ rest.head?, b = 0x2C ∨ b = 0x5D ∨ b = 0x7D

theorem stops_nil : Stops [] := by simp [Stops]

theorem stops_comma (rest : Bytes) : Stops (0x2C :: rest) := by simp [Stops]

theorem stops_closeArray (rest : Bytes) : Stops (0x5D :: rest) := by simp [Stops]

theorem stops_closeObject (rest : Bytes) : Stops (0x7D :: rest) := by simp [Stops]

/-- What follows a value is empty or starts with one of three bytes. -/
theorem Stops.cases {rest : Bytes} (h : Stops rest) :
    rest = [] ∨ ∃ b s, rest = b :: s ∧ (b = 0x2C ∨ b = 0x5D ∨ b = 0x7D) := by
  cases rest with
  | nil => exact .inl rfl
  | cons b s => exact .inr ⟨b, s, rfl, h b rfl⟩

/-- The digits in front are taken, whatever follows them. -/
theorem takeDigits_append (ds : List Digit) (rest : Bytes) :
    takeDigits (ds.map Digit.byte ++ rest)
      = (ds ++ (takeDigits rest).1, (takeDigits rest).2) := by
  induction ds with
  | nil => rfl
  | cons d ds ih => simp [takeDigits, ih]

theorem Stops.takeDigits {rest : Bytes} (h : Stops rest) : takeDigits rest = ([], rest) := by
  obtain rfl | ⟨b, s, rfl, rfl | rfl | rfl⟩ := h.cases <;> rfl

theorem Stops.readExponent? {rest : Bytes} (h : Stops rest) :
    readExponent? rest = some (none, rest) := by
  obtain rfl | ⟨b, s, rfl, rfl | rfl | rfl⟩ := h.cases <;> rfl

theorem Stops.readFraction? {rest : Bytes} (h : Stops rest) :
    readFraction? rest = some ([], rest) := by
  obtain rfl | ⟨b, s, rfl, rfl | rfl | rfl⟩ := h.cases <;> rfl

/-- The bytes of the sign of an exponent. -/
def ExponentSign.spelling : ExponentSign → Bytes
  | .bare => []
  | .plus => [0x2B]
  | .minus => [0x2D]

/-- The bytes of an exponent, if there is one. -/
def exponentSpelling : Option Exponent → Bytes
  | none => []
  | some e => 0x65 :: (e.sign.spelling ++ e.digits.map Digit.byte)

/-- The bytes of a fraction, if there is one. -/
def fractionSpelling (ds : List Digit) : Bytes :=
  if ds.isEmpty then [] else 0x2E :: ds.map Digit.byte

/-- The bytes of a number after its sign. -/
def Numeral.magnitudeSpelling (n : Numeral) : Bytes :=
  n.whole.map Digit.byte ++ (fractionSpelling n.fraction ++ exponentSpelling n.exponent)

/-- The bytes of a number. -/
def Numeral.spelling (n : Numeral) : Bytes :=
  (if n.negative then [0x2D] else []) ++ n.magnitudeSpelling

theorem ofText_render_exponent (e : Exponent) :
    Bytes.ofText e.render = exponentSpelling (some e) := by
  have hmark : Bytes.ofText "e" = [0x65] := rfl
  have hplus : Bytes.ofText "e+" = [0x65, 0x2B] := rfl
  have hminus : Bytes.ofText "e-" = [0x65, 0x2D] := rfl
  obtain ⟨sign, ds⟩ := e
  cases sign <;>
    simp [Exponent.render, exponentSpelling, ExponentSign.spelling, hmark, hplus, hminus]

theorem ofText_render_numeral (n : Numeral) : Bytes.ofText n.render = n.spelling := by
  have hempty : Bytes.ofText "" = [] := rfl
  have hsign : Bytes.ofText (if n.negative then "-" else "")
      = if n.negative then [0x2D] else [] := by
    split <;> rfl
  have hfraction : Bytes.ofText (if n.fraction.isEmpty then "" else "." ++ digitText n.fraction)
      = fractionSpelling n.fraction := by
    have hpoint : Bytes.ofText "." = [0x2E] := rfl
    unfold fractionSpelling
    split <;> simp [hempty, hpoint]
  rw [Numeral.render, Bytes.ofText_append, Bytes.ofText_append, Bytes.ofText_append, hsign,
    hfraction, ofText_digitText, Numeral.spelling, Numeral.magnitudeSpelling]
  cases n.exponent with
  | none => simp [hempty, exponentSpelling]
  | some e => simp [ofText_render_exponent]

/-- One zero or digits that do not start with a zero, and an exponent with digits. -/
structure Numeral.IsWritable (n : Numeral) : Prop where
  whole : n.whole = [Digit.zero] ∨ Leads n.whole
  exponent : ∀ e ∈ n.exponent, e.digits ≠ []

theorem readExponentSign_digit (d : Digit) (rest : Bytes) :
    readExponentSign (d.byte :: rest) = (.bare, d.byte :: rest) := by
  have hplus : d.byte ≠ 0x2B := d.byte_ne rfl
  have hminus : d.byte ≠ 0x2D := d.byte_ne rfl
  rw [readExponentSign] <;> simp_all

theorem readExponentSign_spelling (sign : ExponentSign) {ds : List Digit} (hds : ds ≠ [])
    (rest : Bytes) :
    readExponentSign (sign.spelling ++ (ds.map Digit.byte ++ rest))
      = (sign, ds.map Digit.byte ++ rest) := by
  obtain ⟨d, ds, rfl⟩ := List.exists_cons_of_ne_nil hds
  cases sign with
  | bare => exact readExponentSign_digit d _
  | plus => rfl
  | minus => rfl

theorem readExponent?_spelling {e : Option Exponent} (he : ∀ x ∈ e, x.digits ≠ []) {rest : Bytes}
    (hrest : Stops rest) : readExponent? (exponentSpelling e ++ rest) = some (e, rest) := by
  cases e with
  | none => exact hrest.readExponent?
  | some e =>
    have hds : e.digits ≠ [] := he e rfl
    have htake := takeDigits_append e.digits rest
    rw [hrest.takeDigits, List.append_nil] at htake
    simp only [exponentSpelling, List.cons_append, List.append_assoc, readExponent?,
      readExponentDigits?, readExponentSign_spelling e.sign hds, htake]
    simp [hds]

theorem takeDigits_exponentSpelling (e : Option Exponent) {rest : Bytes} (hrest : Stops rest) :
    takeDigits (exponentSpelling e ++ rest) = ([], exponentSpelling e ++ rest) := by
  cases e with
  | none => exact hrest.takeDigits
  | some e => rfl

theorem readFraction?_spelling (ds : List Digit) (e : Option Exponent) {rest : Bytes}
    (hrest : Stops rest) :
    readFraction? (fractionSpelling ds ++ (exponentSpelling e ++ rest))
      = some (ds, exponentSpelling e ++ rest) := by
  cases ds with
  | nil =>
    cases e with
    | none => exact hrest.readFraction?
    | some e => rfl
  | cons d ds =>
    rw [fractionSpelling, List.isEmpty_cons, if_neg Bool.false_ne_true, List.cons_append,
      readFraction?, takeDigits_append, takeDigits_exponentSpelling e hrest]
    simp

theorem takeDigits_fractionSpelling (ds : List Digit) (e : Option Exponent) {rest : Bytes}
    (hrest : Stops rest) :
    takeDigits (fractionSpelling ds ++ (exponentSpelling e ++ rest))
      = ([], fractionSpelling ds ++ (exponentSpelling e ++ rest)) := by
  cases ds with
  | nil => exact takeDigits_exponentSpelling e hrest
  | cons d ds => rfl

theorem readWhole?_append {ds : List Digit} (hds : ds = [Digit.zero] ∨ Leads ds) {rest : Bytes}
    (hrest : takeDigits rest = ([], rest)) :
    readWhole? (ds.map Digit.byte ++ rest) = some (ds, rest) := by
  obtain rfl | ⟨d, ds, rfl, hd⟩ := hds
  · rfl
  · have hfirst : d.byte ≠ 0x30 := by
      revert d
      decide
    have htake := takeDigits_append (d :: ds) rest
    rw [hrest, List.append_nil, List.map_cons, List.cons_append] at htake
    rw [List.map_cons, List.cons_append, readWhole?]
    · simp [htake]
    · simp_all

/-- A written number is read after its sign. -/
theorem readNumeral?_spelling {n : Numeral} (hn : n.IsWritable) {rest : Bytes}
    (hrest : Stops rest) :
    readNumeral? n.negative (n.magnitudeSpelling ++ rest) = some (n, rest) := by
  have hwhole := readWhole?_append hn.whole
    (takeDigits_fractionSpelling n.fraction n.exponent hrest)
  rw [readNumeral?, Numeral.magnitudeSpelling, List.append_assoc, List.append_assoc, hwhole]
  simp [readFraction?_spelling n.fraction n.exponent hrest,
    readExponent?_spelling hn.exponent hrest]

/-! ## Strings -/

theorem readPieces?_byte {b : UInt8} (acc : List Piece) (rest : Bytes) (hb : ¬ b < 0x20)
    (hquote : b ≠ 0x22) (hslash : b ≠ 0x5C) :
    readPieces? acc (b :: rest) = readPieces? (.byte b :: acc) rest := by
  rw [readPieces?]
  · simp [hb, hslash]
  all_goals simp_all

theorem readPieces?_shortEscape {e b : UInt8} (acc : List Piece) (rest : Bytes)
    (he : shortEscape? e = some b) :
    readPieces? acc (0x5C :: e :: rest) = readPieces? (.byte b :: acc) rest := by
  rw [readPieces?]
  · simp [he]
  · rintro a b c d rest rfl
    simp [shortEscape?] at he

theorem readPieces?_code {a b c d : UInt8} {code : Nat} (acc : List Piece) (rest : Bytes)
    (hcode : Bytes.hexNat? [a, b, c, d] = some code) :
    readPieces? acc (0x5C :: 0x75 :: a :: b :: c :: d :: rest)
      = readPieces? (.unit code :: acc) rest := by
  rw [readPieces?]
  simp [hcode]

/-- Bytes of text without a quote, a backslash and control characters are read one by one. -/
theorem readPieces?_bytes {bs : Bytes} (hbs : ∀ b ∈ bs, ¬ b < 0x20 ∧ b ≠ 0x22 ∧ b ≠ 0x5C)
    (acc : List Piece) (rest : Bytes) :
    readPieces? acc (bs ++ rest) = readPieces? ((bs.map Piece.byte).reverse ++ acc) rest := by
  induction bs generalizing acc with
  | nil => rfl
  | cons b bs ih =>
    obtain ⟨hb, hquote, hslash⟩ := hbs b (by simp)
    rw [List.cons_append, readPieces?_byte acc _ hb hquote hslash,
      ih (fun x hx => hbs x (by simp [hx]))]
    simp

theorem joinPieces?_bytes (bs : Bytes) (ps : List Piece) :
    joinPieces? (bs.map Piece.byte ++ ps) = (joinPieces? ps).map (bs ++ ·) := by
  induction bs with
  | nil => simp
  | cons b bs ih => simp [joinPieces?, ih, Function.comp_def]

/-- A character is one byte of the same number, or bytes with their highest bit set. -/
theorem mem_utf8EncodeChar {c : Char} {b : UInt8} (hb : b ∈ String.utf8EncodeChar c) :
    b.toNat = c.toNat ∨ 0x80 ≤ b.toNat := by
  have hval : c.val.toNat = c.toNat := rfl
  simp only [String.utf8EncodeChar, hval] at hb
  split at hb
  · obtain rfl := List.mem_singleton.1 hb
    rw [UInt8.toNat_ofNat']
    omega
  · right
    have high (n : Nat) (h : 0x80 ≤ n % 0x100) : 0x80 ≤ (UInt8.ofNat n).toNat := by
      rwa [UInt8.toNat_ofNat']
    split at hb
    · simp only [List.mem_cons, List.not_mem_nil, or_false] at hb
      rcases hb with rfl | rfl <;> exact high _ (by omega)
    · split at hb <;> simp only [List.mem_cons, List.not_mem_nil, or_false] at hb
      · rcases hb with rfl | rfl | rfl <;> exact high _ (by omega)
      · rcases hb with rfl | rfl | rfl | rfl <;> exact high _ (by omega)

/-- The bytes of a character that needs no escape can stand in a string. -/
theorem utf8EncodeChar_plain {c : Char} (hc : ¬ c.toNat < 0x20) (hquote : c ≠ '"')
    (hslash : c ≠ '\\') :
    ∀ b ∈ String.utf8EncodeChar c, ¬ b < 0x20 ∧ b ≠ 0x22 ∧ b ≠ 0x5C := by
  intro b hb
  have hquote' : c.toNat ≠ 0x22 := fun h => hquote (Char.toNat_inj.1 h)
  have hslash' : c.toNat ≠ 0x5C := fun h => hslash (Char.toNat_inj.1 h)
  have hnat := mem_utf8EncodeChar hb
  rw [UInt8.lt_iff_toNat_lt, ne_eq, ne_eq, ← UInt8.toNat_inj, ← UInt8.toNat_inj]
  simp only [UInt8.reduceToNat]
  omega

theorem joinPieces?_unit {code : Nat} (hcode : code < 0xD800) (ps : List Piece) :
    joinPieces? (.unit code :: ps) = (joinPieces? ps).map (encodePoint code ++ ·) := by
  rw [joinPieces?.eq_def]
  exact if_pos (.inl hcode)

/-- The escape of a control character by its number. -/
theorem readPieces?_control {n : Nat} (hn : n < 0x20) (acc : List Piece) (rest : Bytes) :
    readPieces? acc (Bytes.ofText
        ("\\u00" ++ String.ofList [Bytes.hexDigit (n / 16), Bytes.hexDigit (n % 16)]) ++ rest)
      = readPieces? (.unit n :: acc) rest := by
  have digit : ∀ k < 16, (String.utf8EncodeChar (Bytes.hexDigit k)).map Bytes.hexValue?
      = [some k] := by decide
  obtain ⟨a, ha, hvalueA⟩ := List.map_eq_singleton_iff.1 (digit (n / 16) (by omega))
  obtain ⟨b, hb, hvalueB⟩ := List.map_eq_singleton_iff.1 (digit (n % 16) (by omega))
  have hlead : Bytes.ofText "\\u00" = [0x5C, 0x75, 0x30, 0x30] := rfl
  have hcode : Bytes.hexNat? [0x30, 0x30, a, b] = some n := by
    have hzero : Bytes.hexValue? 0x30 = some 0 := rfl
    simp [Bytes.hexNat?, hzero, hvalueA, hvalueB]
    omega
  rw [Bytes.ofText_append, hlead, Bytes.ofText_ofList, List.flatMap_cons, List.flatMap_cons,
    List.flatMap_nil, ha, hb]
  exact readPieces?_code acc rest hcode

/--
A character written in a string is read as pieces that stand for its bytes; pieces that follow are
joined on their own.
-/
theorem readPieces?_escapeChar (c : Char) :
    ∃ ps : List Piece,
      (∀ acc rest, readPieces? acc (Bytes.ofText (escapeChar c) ++ rest)
        = readPieces? (ps.reverse ++ acc) rest) ∧
      ∀ qs, joinPieces? (ps ++ qs) = (joinPieces? qs).map (String.utf8EncodeChar c ++ ·) := by
  -- An escape of one letter is read as the one byte of its character.
  have short (e b : UInt8) (he : shortEscape? e = some b) (s : String)
      (hs : Bytes.ofText s = [0x5C, e]) (hc : String.utf8EncodeChar c = [b]) :
      ∃ ps : List Piece,
        (∀ acc rest, readPieces? acc (Bytes.ofText s ++ rest)
          = readPieces? (ps.reverse ++ acc) rest) ∧
        ∀ qs, joinPieces? (ps ++ qs) = (joinPieces? qs).map (String.utf8EncodeChar c ++ ·) := by
    refine ⟨[.byte b], fun acc rest => ?_, fun qs => ?_⟩
    · rw [hs]
      exact readPieces?_shortEscape acc rest he
    · rw [hc]
      exact joinPieces?_bytes [b] qs
  unfold escapeChar
  split_ifs with hquote hslash hbell htab hline hfeed hreturn hcontrol
  · subst hquote
    exact short 0x22 0x22 rfl _ rfl rfl
  · subst hslash
    exact short 0x5C 0x5C rfl _ rfl rfl
  · subst hbell
    exact short 0x62 0x08 rfl _ rfl rfl
  · subst htab
    exact short 0x74 0x09 rfl _ rfl rfl
  · subst hline
    exact short 0x6E 0x0A rfl _ rfl rfl
  · subst hfeed
    exact short 0x66 0x0C rfl _ rfl rfl
  · subst hreturn
    exact short 0x72 0x0D rfl _ rfl rfl
  · refine ⟨[.unit c.toNat], fun acc rest => ?_, fun qs => ?_⟩
    · exact readPieces?_control hcontrol acc rest
    · rw [List.singleton_append, joinPieces?_unit (by omega), encodePoint, Char.ofNat_toNat]
  · refine ⟨(String.utf8EncodeChar c).map .byte, fun acc rest => ?_, fun qs => ?_⟩
    · have hsingle : Bytes.ofText (String.singleton c) = String.utf8EncodeChar c :=
        Bytes.ofText_push "" c
      rw [hsingle]
      exact readPieces?_bytes (utf8EncodeChar_plain hcontrol hquote hslash) acc rest
    · exact joinPieces?_bytes _ qs

/-- The bytes of a string between its quotes. -/
def quotedSpelling (s : String) : Bytes := s.toList.flatMap fun c => Bytes.ofText (escapeChar c)

theorem readPieces?_flatMap (cs : List Char) :
    ∃ ps : List Piece,
      (∀ acc rest, readPieces? acc
          (cs.flatMap (fun c => Bytes.ofText (escapeChar c)) ++ 0x22 :: rest)
        = some (acc.reverse ++ ps, rest)) ∧
      joinPieces? ps = some (cs.flatMap String.utf8EncodeChar) := by
  induction cs with
  | nil => exact ⟨[], fun acc rest => by simp [readPieces?], rfl⟩
  | cons c cs ih =>
    obtain ⟨ps, hread, hjoin⟩ := readPieces?_escapeChar c
    obtain ⟨qs, hreads, hjoins⟩ := ih
    refine ⟨ps ++ qs, fun acc rest => ?_, ?_⟩
    · rw [List.flatMap_cons, List.append_assoc, hread, hreads]
      simp
    · rw [hjoin, hjoins]
      simp

/-- A written string is read after its opening quote. -/
theorem readText?_spelling (s : String) (rest : Bytes) :
    readText? (quotedSpelling s ++ 0x22 :: rest) = some (some s, rest) := by
  obtain ⟨ps, hread, hjoin⟩ := readPieces?_flatMap s.toList
  have htext : textOfPieces ps = some s := by
    rw [textOfPieces, hjoin, Option.bind_some, ← Bytes.ofText_ofList, String.ofList_toList,
      Bytes.text?_ofText]
  rw [readText?, quotedSpelling, hread]
  simp [htext]

/-! ## Tokens -/

/-- A token at the front of the bytes is taken by the machine. -/
theorem readFrom?_cons {b : UInt8} {rest rest' : Bytes} {t : Token} {r r' : Reader}
    (hb : isBlank b = false) (ht : Token.read? b rest = some (t, rest'))
    (hs : r.step? t = some r') : readFrom? r (b :: rest) = readFrom? r' rest' := by
  rw [readFrom?, hb, if_neg Bool.false_ne_true]
  split
  · simp_all
  · simp_all

theorem read?_string (s : String) (rest : Bytes) :
    Token.read? 0x22 (quotedSpelling s ++ 0x22 :: rest) = some (.string (some s), rest) := by
  rw [Token.read?, readText?_spelling]
  rfl

theorem read?_digit (d : Digit) (rest : Bytes) :
    Token.read? d.byte rest
      = (readNumeral? false (d.byte :: rest)).map fun r => (.number r.1, r.2) := by
  rw [Token.read?]
  all_goals exact d.byte_ne rfl

theorem isBlank_byte (d : Digit) : isBlank d.byte = false := by
  revert d
  decide

/-- The first byte of a written number is a minus sign or a digit. -/
theorem read?_number {n : Numeral} (hn : n.IsWritable) {rest : Bytes} (hrest : Stops rest) :
    ∃ b s, n.spelling ++ rest = b :: s ∧ isBlank b = false ∧
      Token.read? b s = some (.number n, rest) := by
  have hread := readNumeral?_spelling hn hrest
  cases hneg : n.negative with
  | true =>
    refine ⟨0x2D, n.magnitudeSpelling ++ rest, by simp [Numeral.spelling, hneg], rfl, ?_⟩
    rw [hneg] at hread
    simp [Token.read?, hread]
  | false =>
    obtain ⟨d, ds, hwhole⟩ : ∃ d ds, n.whole = d :: ds := by
      obtain h | ⟨d, ds, h, -⟩ := hn.whole
      · exact ⟨_, _, h⟩
      · exact ⟨d, ds, h⟩
    have hspelling : ∃ s, n.magnitudeSpelling ++ rest = d.byte :: s := by
      simp [Numeral.magnitudeSpelling, hwhole]
    obtain ⟨s, hs⟩ := hspelling
    refine ⟨d.byte, s, by simp [Numeral.spelling, hneg, hs], isBlank_byte d, ?_⟩
    rw [hneg, hs] at hread
    simp [read?_digit, hread]

/-! ## Values -/

/-- The bytes of a string with its quotes; one that forms no text is written empty. -/
def textSpelling (s : Text) : Bytes := 0x22 :: (quotedSpelling (s.getD "") ++ [0x22])

mutual

/-- The bytes of a value. -/
def spelling : Json → Bytes
  | .null => [0x6E, 0x75, 0x6C, 0x6C]
  | .bool true => [0x74, 0x72, 0x75, 0x65]
  | .bool false => [0x66, 0x61, 0x6C, 0x73, 0x65]
  | .number n => n.spelling
  | .string s => textSpelling s
  | .array [] => [0x5B, 0x5D]
  | .array (v :: rest) => 0x5B :: (spelling v ++ elementsSpelling rest)
  | .object [] => [0x7B, 0x7D]
  | .object ((k, v) :: rest) =>
    0x7B :: (textSpelling k ++ 0x3A :: (spelling v ++ membersSpelling rest))

/-- The bytes of the elements after the first one, with the end of the array. -/
def elementsSpelling : List Json → Bytes
  | [] => [0x5D]
  | v :: rest => 0x2C :: (spelling v ++ elementsSpelling rest)

/-- The bytes of the members after the first one, with the end of the object. -/
def membersSpelling : List (Text × Json) → Bytes
  | [] => [0x7D]
  | (k, v) :: rest => 0x2C :: (textSpelling k ++ 0x3A :: (spelling v ++ membersSpelling rest))

end

theorem ofText_writeText (out : String) (s : Text) :
    Bytes.ofText (writeText out s) = Bytes.ofText out ++ textSpelling s := by
  have hfold (cs : List Char) (out : String) :
      Bytes.ofText (cs.foldl (fun out c => out ++ escapeChar c) out)
        = Bytes.ofText out ++ cs.flatMap fun c => Bytes.ofText (escapeChar c) := by
    induction cs generalizing out with
    | nil => simp
    | cons c cs ih => simp [ih]
  have hquote : String.utf8EncodeChar '"' = [0x22] := rfl
  simp [writeText, writeQuoted, hfold, hquote, textSpelling, quotedSpelling]

mutual

/-- Writing appends the bytes of the value. -/
theorem ofText_write (out : String) (v : Json) :
    Bytes.ofText (write out v) = Bytes.ofText out ++ v.spelling := by
  have hopenArray : String.utf8EncodeChar '[' = [0x5B] := rfl
  have hopenObject : String.utf8EncodeChar '\x7b' = [0x7B] := rfl
  have hcolon : String.utf8EncodeChar ':' = [0x3A] := rfl
  match v with
  | .null => exact Bytes.ofText_append out "null"
  | .bool true => exact Bytes.ofText_append out "true"
  | .bool false => exact Bytes.ofText_append out "false"
  | .number n => rw [write, Bytes.ofText_append, ofText_render_numeral, spelling]
  | .string s => rw [write, ofText_writeText, spelling]
  | .array [] => exact Bytes.ofText_append out "[]"
  | .array (v :: rest) =>
    simp [write, ofText_writeElements _ rest, ofText_write _ v, hopenArray, spelling]
  | .object [] => exact Bytes.ofText_append out "\x7b\x7d"
  | .object ((k, v) :: rest) =>
    simp [write, ofText_writeMembers _ rest, ofText_write _ v, ofText_writeText, hopenObject,
      hcolon, spelling]

theorem ofText_writeElements (out : String) (vs : List Json) :
    Bytes.ofText (writeElements out vs) = Bytes.ofText out ++ elementsSpelling vs := by
  have hcomma : String.utf8EncodeChar ',' = [0x2C] := rfl
  match vs with
  | [] => exact Bytes.ofText_push out ']'
  | v :: rest =>
    simp [writeElements, ofText_writeElements _ rest, ofText_write _ v, hcomma, elementsSpelling]

theorem ofText_writeMembers (out : String) (ms : List (Text × Json)) :
    Bytes.ofText (writeMembers out ms) = Bytes.ofText out ++ membersSpelling ms := by
  have hcomma : String.utf8EncodeChar ',' = [0x2C] := rfl
  have hcolon : String.utf8EncodeChar ':' = [0x3A] := rfl
  match ms with
  | [] => exact Bytes.ofText_push out '\x7d'
  | (k, v) :: rest =>
    simp [writeMembers, ofText_writeMembers _ rest, ofText_write _ v, ofText_writeText, hcomma,
      hcolon, membersSpelling]

end

mutual

/-- Every string has a text and every numeral has the shape of the grammar. -/
def IsWritable : Json → Prop
  | .number n => n.IsWritable
  | .string s => s.isSome
  | .array elements => ElementsWritable elements
  | .object members => MembersWritable members
  | _ => True

/-- Every element is writable. -/
def ElementsWritable : List Json → Prop
  | [] => True
  | v :: rest => IsWritable v ∧ ElementsWritable rest

/-- Every key has a text and every value is writable. -/
def MembersWritable : List (Text × Json) → Prop
  | [] => True
  | (k, v) :: rest => k.isSome ∧ IsWritable v ∧ MembersWritable rest

end

/-- Whether the machine waits for a value. -/
def Phase.AwaitsValue (p : Phase) : Prop := p = .value ∨ p = .firstElement

theorem step?_awaitsValue {p : Phase} (hp : p.AwaitsValue) (stack : List Frame) {t : Token}
    (ht : t ≠ .closeArray) : Reader.step? ⟨stack, p⟩ t = Reader.value? stack t := by
  obtain rfl | rfl := hp
  · rfl
  · cases t with
    | closeArray => exact absurd rfl ht
    | _ => rfl

theorem elementsSpelling_stops (vs : List Json) (rest : Bytes) :
    Stops (elementsSpelling vs ++ rest) := by
  cases vs with
  | nil => exact stops_closeArray rest
  | cons v vs => exact stops_comma _

theorem membersSpelling_stops (ms : List (Text × Json)) (rest : Bytes) :
    Stops (membersSpelling ms ++ rest) := by
  cases ms with
  | nil => exact stops_closeObject rest
  | cons m ms => exact stops_comma _

/-- A key and its colon bring the machine to the value of the member. -/
theorem readFrom?_key {k : Text} (hk : k.isSome) {r : Reader} {done : List (Text × Json)}
    (hr : r.step? (.string k) = some ⟨r.stack, .colon done k⟩) (rest : Bytes) :
    readFrom? r (textSpelling k ++ 0x3A :: rest)
      = readFrom? ⟨.object done k :: r.stack, .value⟩ rest := by
  obtain ⟨s, rfl⟩ := Option.isSome_iff_exists.1 hk
  have hread := read?_string s (0x3A :: rest)
  rw [textSpelling, Option.getD_some, List.cons_append, List.append_assoc, List.singleton_append,
    readFrom?_cons rfl hread hr]
  exact readFrom?_cons rfl rfl rfl

mutual

/--
The machine reads a written value to its end and then waits for what follows it. The induction is
on the value; `stack` and `rest` are any, so that the hypothesis serves inside containers too.
-/
theorem readFrom?_spelling (v : Json) (hv : v.IsWritable) {p : Phase} (hp : p.AwaitsValue)
    (stack : List Frame) {rest : Bytes} (hrest : Stops rest) :
    readFrom? ⟨stack, p⟩ (v.spelling ++ rest) = readFrom? ⟨stack, .complete v⟩ rest := by
  have hfirst {t : Token} (ht : t ≠ .closeArray) := step?_awaitsValue hp stack ht
  match v with
  | .null => exact readFrom?_cons rfl rfl (hfirst nofun)
  | .bool true => exact readFrom?_cons rfl rfl (hfirst nofun)
  | .bool false => exact readFrom?_cons rfl rfl (hfirst nofun)
  | .number n =>
    obtain ⟨b, s, hspelling, hblank, hread⟩ := read?_number hv hrest
    rw [spelling, hspelling]
    exact readFrom?_cons hblank hread (hfirst nofun)
  | .string s =>
    obtain ⟨s, rfl⟩ := Option.isSome_iff_exists.1 hv
    rw [spelling, textSpelling, Option.getD_some, List.cons_append, List.append_assoc]
    exact readFrom?_cons rfl (read?_string s rest) (hfirst nofun)
  | .array [] =>
    rw [spelling, List.cons_append, readFrom?_cons rfl rfl (hfirst (t := .openArray) nofun)]
    exact readFrom?_cons rfl rfl rfl
  | .array (v :: vs) =>
    have hvs : v.IsWritable ∧ ElementsWritable vs := hv
    rw [spelling, List.cons_append, List.append_assoc,
      readFrom?_cons rfl rfl (hfirst (t := .openArray) nofun),
      readFrom?_spelling v hvs.1 (.inr rfl) _ (elementsSpelling_stops vs rest),
      readFrom?_elements vs hvs.2 [] v stack hrest]
    rfl
  | .object [] =>
    rw [spelling, List.cons_append, readFrom?_cons rfl rfl (hfirst (t := .openObject) nofun)]
    exact readFrom?_cons rfl rfl rfl
  | .object ((k, v) :: ms) =>
    have hms : k.isSome ∧ v.IsWritable ∧ MembersWritable ms := hv
    rw [spelling, List.cons_append, List.append_assoc, List.cons_append, List.append_assoc,
      readFrom?_cons rfl rfl (hfirst (t := .openObject) nofun), readFrom?_key hms.1 rfl,
      readFrom?_spelling v hms.2.1 (.inl rfl) _ (membersSpelling_stops ms rest),
      readFrom?_members ms hms.2.2 [] k v stack hrest]
    rfl

theorem readFrom?_elements (vs : List Json) (hvs : ElementsWritable vs) (done : List Json)
    (v : Json) (stack : List Frame) {rest : Bytes} (hrest : Stops rest) :
    readFrom? ⟨.array done :: stack, .complete v⟩ (elementsSpelling vs ++ rest)
      = readFrom? ⟨stack, .complete (.array (done.reverse ++ v :: vs))⟩ rest := by
  match vs with
  | [] =>
    rw [elementsSpelling, List.cons_append, readFrom?_cons rfl rfl rfl]
    simp
  | w :: vs =>
    rw [elementsSpelling, List.cons_append, List.append_assoc, readFrom?_cons rfl rfl rfl,
      readFrom?_spelling w hvs.1 (.inl rfl) _ (elementsSpelling_stops vs rest),
      readFrom?_elements vs hvs.2 (v :: done) w stack hrest]
    simp

theorem readFrom?_members (ms : List (Text × Json)) (hms : MembersWritable ms)
    (done : List (Text × Json)) (k : Text) (v : Json) (stack : List Frame) {rest : Bytes}
    (hrest : Stops rest) :
    readFrom? ⟨.object done k :: stack, .complete v⟩ (membersSpelling ms ++ rest)
      = readFrom? ⟨stack, .complete (.object (done.reverse ++ (k, v) :: ms))⟩ rest := by
  match ms with
  | [] =>
    rw [membersSpelling, List.cons_append, readFrom?_cons rfl rfl rfl]
    simp
  | (l, w) :: ms =>
    rw [membersSpelling, List.cons_append, List.append_assoc, List.cons_append, List.append_assoc,
      readFrom?_cons rfl rfl rfl, readFrom?_key hms.1 rfl,
      readFrom?_spelling w hms.2.1 (.inl rfl) _ (membersSpelling_stops ms rest),
      readFrom?_members ms hms.2.2 ((k, v) :: done) l w stack hrest]
    simp

end

/-- The text of a value is read as that value. -/
theorem parse?_render {v : Json} (hv : v.IsWritable) :
    parse? (Bytes.ofText v.render) = some v := by
  have hread := readFrom?_spelling v hv (p := .value) (.inl rfl) [] stops_nil
  have hend : readFrom? ⟨[], .complete v⟩ [] = some v := by
    rw [readFrom?]
    rfl
  rw [List.append_nil, hend] at hread
  rw [parse?, render, ofText_write]
  exact hread

end StorageWeave.Json
