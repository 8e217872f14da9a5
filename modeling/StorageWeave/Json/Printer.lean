import StorageWeave.Json.Basic

/-!
# Writing JSON

Values are written without blanks. In strings only the quote, the backslash and the control
characters below the blank are escaped, five of them by a letter.
-/

namespace StorageWeave.Json

open Numeric

/-- The text of one character inside a string. -/
def escapeChar (c : Char) : String :=
  if c = '"' then "\\\""
  else if c = '\\' then "\\\\"
  else if c = '\x08' then "\\b"
  else if c = '\t' then "\\t"
  else if c = '\n' then "\\n"
  else if c = '\x0c' then "\\f"
  else if c = '\r' then "\\r"
  else if c.toNat < 0x20 then
    "\\u00" ++ String.ofList [Bytes.hexDigit (c.toNat / 16), Bytes.hexDigit (c.toNat % 16)]
  else String.singleton c

/-- Appends a text in quotes. -/
def writeQuoted (out : String) (s : String) : String :=
  s.toList.foldl (fun out c => out ++ escapeChar c) (out.push '"') |>.push '"'

/-- Appends a string; one that forms no text is written empty. -/
def writeText (out : String) (s : Text) : String := writeQuoted out (s.getD "")

/-- The text of an exponent. -/
def Exponent.render (e : Exponent) : String :=
  let sign := match e.sign with
    | .bare => ""
    | .plus => "+"
    | .minus => "-"
  "e" ++ sign ++ digitText e.digits

/-- The text of a number. -/
def Numeral.render (n : Numeral) : String :=
  (if n.negative then "-" else "") ++ digitText n.whole
    ++ (if n.fraction.isEmpty then "" else "." ++ digitText n.fraction)
    ++ (match n.exponent with
      | none => ""
      | some e => e.render)

mutual

/-- Appends a value. -/
def write (out : String) : Json → String
  | .null => out ++ "null"
  | .bool true => out ++ "true"
  | .bool false => out ++ "false"
  | .number n => out ++ n.render
  | .string s => writeText out s
  | .array [] => out ++ "[]"
  | .array (v :: rest) => writeElements (write (out.push '[') v) rest
  | .object [] => out ++ "\x7b\x7d"
  | .object ((k, v) :: rest) =>
    writeMembers (write ((writeText (out.push '\x7b') k).push ':') v) rest

/-- Appends the elements after the first one and closes the array. -/
def writeElements (out : String) : List Json → String
  | [] => out.push ']'
  | v :: rest => writeElements (write (out.push ',') v) rest

/-- Appends the members after the first one and closes the object. -/
def writeMembers (out : String) : List (Text × Json) → String
  | [] => out.push '\x7d'
  | (k, v) :: rest => writeMembers (write ((writeText (out.push ',') k).push ':') v) rest

end

/-- The text of a value. -/
def render (v : Json) : String := write "" v

end StorageWeave.Json
