import Sigil.Json
import Sigil.Text.Quoted

/-!
# Json/Writer — documents as text

A document is written on one line, with a blank after each comma and colon, in characters below
U+007F: all others are escaped by their UTF-16 units.
-/

namespace Sigil

/-- Numbers are written with the fewest digits that identify them: positionally from `0.0001` up to
below `10 ^ 16`, with `.0` on whole numbers, otherwise with a signed exponent of two digits or
more. -/
def Double.text : Double → String
  | .nan => "nan"
  | .infinite negative => if negative then "-inf" else "inf"
  | .finite negative m e =>
    let sign := if negative then "-" else ""
    if m = 0 then sign ++ "0.0"
    else
      let (c, x) := digits m e
      let ds := Nat.toDigits 10 c
      let point : Int := ds.length + x
      let zeros (n : Int) := List.replicate n.toNat '0'
      sign ++ String.ofList (
        if -4 < point ∧ point ≤ 16 then
          if point ≤ 0 then ['0', '.'] ++ zeros (-point) ++ ds
          else if ds.length ≤ point then ds ++ zeros x ++ ['.', '0']
          else ds.take point.toNat ++ '.' :: ds.drop point.toNat
        else
          let power := (Nat.toDigits 10 (point - 1).natAbs)
          (match ds with
            | d :: more@(_ :: _) => d :: '.' :: more
            | _ => ds) ++
          'e' :: (if point ≤ 0 then '-' else '+') ::
          (if power.length < 2 then '0' :: power else power))

namespace Json

/-- A UTF-16 unit as an escape. -/
def unitEscape (n : Nat) : Text := '\\' :: 'u' :: Text.hex 4 n

/-- A character inside a string. -/
def escape (c : Char) : Text :=
  if c = '"' then ['\\', '"']
  else if c = '\\' then ['\\', '\\']
  else if c = '\n' then ['\\', 'n']
  else if c = '\r' then ['\\', 'r']
  else if c = '\t' then ['\\', 't']
  else if c = '\x08' then ['\\', 'b']
  else if c = '\x0c' then ['\\', 'f']
  else if 32 ≤ c.toNat ∧ c.toNat < 127 then [c]
  else if c.toNat < 0x10000 then unitEscape c.toNat
  else
    unitEscape (0xd800 + (c.toNat - 0x10000) / 0x400) ++
      unitEscape (0xdc00 + (c.toNat - 0x10000) % 0x400)

/-- A string in quotes. -/
def quote (s : String) : String :=
  String.ofList ('"' :: (s.toList.flatMap escape ++ ['"']))

/-- A number that is no whole number. -/
def doubleText : Double → String
  | .nan => "NaN"
  | .infinite negative => if negative then "-Infinity" else "Infinity"
  | d => d.text

mutual

/-- **A document as text.** -/
def write : Json → String
  | .null => "null"
  | .bool b => if b then "true" else "false"
  | .int i => toString i
  | .double d => doubleText d
  | .str s => quote s
  | .arr items => "[" ++ writeItems items ++ "]"
  | .obj entries => "\x7b" ++ writeEntries entries ++ "\x7d"

/-- The items of a list. -/
def writeItems : List Json → String
  | [] => ""
  | [x] => write x
  | x :: rest => write x ++ ", " ++ writeItems rest

/-- The entries of an object. -/
def writeEntries : List (String × Json) → String
  | [] => ""
  | [(k, v)] => quote k ++ ": " ++ write v
  | (k, v) :: rest => quote k ++ ": " ++ write v ++ ", " ++ writeEntries rest

end

end Json

end Sigil
