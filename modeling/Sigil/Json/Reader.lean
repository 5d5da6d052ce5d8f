import Sigil.Json
import Sigil.Text

/-!
# Json/Reader — text as documents

The reader takes the usual documents and also `NaN`, `Infinity` and `-Infinity`.  Of two entries
with one key the later value counts, in the place of the earlier.  A text that is no document is
refused with a reason and the place where it shows.  A document may also be beyond what can be held:
a number with too many digits, lists and objects too deep in one another, or a string with half of a
pair of UTF-16 units, which is no text.  How deep is too deep depends on the reader's surroundings.
-/

namespace Sigil.Json

/-- Why a text is no document. -/
inductive Reason where
  | byteOrderMark
  | noValue
  | noName
  | noColon
  | noComma
  | moreData
  | openString
  | controlCharacter
  | badEscape
  | badUnit
deriving DecidableEq, Repr

/-- The wording of a reason. -/
def Reason.text : Reason → String
  | .byteOrderMark => "Unexpected UTF-8 BOM (decode using utf-8-sig)"
  | .noValue => "Expecting value"
  | .noName => "Expecting property name enclosed in double quotes"
  | .noColon => "Expecting ':' delimiter"
  | .noComma => "Expecting ',' delimiter"
  | .moreData => "Extra data"
  | .openString => "Unterminated string starting at"
  | .controlCharacter => "Invalid control character at"
  | .badEscape => "Invalid \\escape"
  | .badUnit => "Invalid \\uXXXX escape"

/-- A text that is no document: the reason, and the place as line, column and offset. -/
structure Malformed where
  /-- The reason. -/
  reason : Reason
  /-- Line, counted from 1. -/
  line : Nat
  /-- Column, counted from 1. -/
  column : Nat
  /-- Offset. -/
  offset : Nat
deriving DecidableEq, Repr

/-- The wording of a refusal. -/
def Malformed.message (m : Malformed) : String :=
  m.reason.text ++ ": line " ++ toString m.line ++ " column " ++ toString m.column ++
    " (char " ++ toString m.offset ++ ")"

/-- A refusal at an offset of a text. -/
def Malformed.at (text : Text) (reason : Reason) (offset : Nat) : Malformed :=
  let before := text.take offset
  { reason := reason
    line := before.count '\n' + 1
    column := (before.reverse.takeWhile (· ≠ '\n')).length + 1
    offset := offset }

/-- A reason and the offset where it shows. -/
abbrev Refusal := Reason × Nat

/-- What a document is beyond. -/
inductive Limit where
  /-- The digits of a whole number. -/
  | digits
  /-- The lists and objects around a value. -/
  | depth
  /-- The characters of a text: a unit lacks its partner. -/
  | pairs
deriving DecidableEq, Repr

/-- Why a text cannot be read. -/
inductive Unread where
  /-- It is no document. -/
  | malformed (m : Malformed)
  /-- The document cannot be held. -/
  | beyond (l : Limit)
deriving DecidableEq, Repr

/-- What stops the reader. -/
inductive Stop where
  /-- The text is no document. -/
  | refused (r : Refusal)
  /-- The document cannot be held. -/
  | beyond (l : Limit)
deriving DecidableEq, Repr

/-- The failure to read a text at which the reader was stopped. -/
def Stop.unread (text : Text) : Stop → Unread
  | .refused (reason, offset) => .malformed (.at text reason offset)
  | .beyond l => .beyond l

/-- Blank between the parts of a document. -/
def isSpace (c : Char) : Bool := c = ' ' || c = '\t' || c = '\n' || c = '\r'

/-- Skips blanks. -/
def skipSpace : Text → Nat → Text × Nat
  | c :: rest, pos => if isSpace c then skipSpace rest (pos + 1) else (c :: rest, pos)
  | [], pos => ([], pos)

/-! ## Strings -/

/-- The value of a hexadecimal digit. -/
def hexValue? (c : Char) : Option Nat :=
  if c.isDigit then some (c.toNat - 48)
  else if 'a' ≤ c ∧ c ≤ 'f' then some (c.toNat - 87)
  else if 'A' ≤ c ∧ c ≤ 'F' then some (c.toNat - 55)
  else none

/-- The number that four hexadecimal digits write. -/
def unit? (a b c d : Char) : Option Nat := do
  let a ← hexValue? a
  let b ← hexValue? b
  let c ← hexValue? c
  let d ← hexValue? d
  return ((a * 16 + b) * 16 + c) * 16 + d

/-- The character a single-letter escape stands for. -/
def simpleEscape? : Char → Option Char
  | '"' => some '"'
  | '\\' => some '\\'
  | '/' => some '/'
  | 'b' => some '\x08'
  | 'f' => some '\x0c'
  | 'n' => some '\n'
  | 'r' => some '\r'
  | 't' => some '\t'
  | _ => none

/-- The character of a UTF-16 unit; a unit that needs a partner becomes the replacement sign. -/
def unitChar (n : Nat) : Char :=
  if 0xd800 ≤ n ∧ n < 0xe000 then '\ufffd' else Char.ofNat n

/-- Reads a string from behind its opening quote, which stands at offset `opening`.  The characters
read so far are kept last first. -/
def readString (opening : Nat) (done : Text) (pos : Nat) :
    Text → Except Refusal (String × Text × Nat)
  | [] => .error (.openString, opening)
  | '"' :: rest => .ok (String.ofList done.reverse, rest, pos + 1)
  | ['\\'] => .error (.openString, opening)
  | '\\' :: 'u' :: a :: b :: c :: d :: '\\' :: 'u' :: e :: f :: g :: h :: rest =>
    match unit? a b c d with
    | none => .error (.badUnit, pos + 1)
    | some high =>
      if 0xd800 ≤ high ∧ high < 0xdc00 ∧ !rest.isEmpty then
        match unit? e f g h with
        | none => .error (.badUnit, pos + 7)
        | some low =>
          if 0xdc00 ≤ low ∧ low < 0xe000 then
            let c := Char.ofNat (0x10000 + (high - 0xd800) * 0x400 + (low - 0xdc00))
            readString opening (c :: done) (pos + 12) rest
          else
            readString opening (unitChar high :: done) (pos + 6)
              ('\\' :: 'u' :: e :: f :: g :: h :: rest)
      else
        readString opening (unitChar high :: done) (pos + 6)
          ('\\' :: 'u' :: e :: f :: g :: h :: rest)
  | '\\' :: 'u' :: a :: b :: c :: d :: next :: rest =>
    match unit? a b c d with
    | none => .error (.badUnit, pos + 1)
    | some n => readString opening (unitChar n :: done) (pos + 6) (next :: rest)
  | '\\' :: 'u' :: _ => .error (.badUnit, pos + 1)
  | '\\' :: c :: rest =>
    match simpleEscape? c with
    | none => .error (.badEscape, pos)
    | some e => readString opening (e :: done) (pos + 2) rest
  | c :: rest =>
    if c.toNat ≤ 0x1f then .error (.controlCharacter, pos)
    else readString opening (c :: done) (pos + 1) rest

theorem readString_quote (opening : Nat) (done : Text) (pos : Nat) (rest : Text) :
    readString opening done pos ('"' :: rest)
      = .ok (String.ofList done.reverse, rest, pos + 1) := by
  rw [readString]

/-! ## Numbers -/

/-- The number that a run of digits writes. -/
def digitsValue (ds : Text) : Nat := ds.foldl (fun n c => n * 10 + (c.toNat - 48)) 0

/-- The digits behind a point, if there are any. -/
def places (text : Text) : Text :=
  match text with
  | '.' :: rest => rest.takeWhile Char.isDigit
  | _ => []

/-- An exponent: whether it is negative, its digits, and how many characters it takes. -/
def exponent? (text : Text) : Option (Bool × Text × Nat) :=
  match text with
  | e :: rest =>
    if e = 'e' ∨ e = 'E' then
      let (negative, skipped, rest) := match rest with
        | '-' :: rest => (true, 1, rest)
        | '+' :: rest => (false, 1, rest)
        | _ => (false, 0, rest)
      let ds := rest.takeWhile Char.isDigit
      if ds.isEmpty then none else some (negative, ds, 1 + skipped + ds.length)
    else none
  | [] => none

/-- The number at the front of a text, if one is there, with what follows it. -/
def readNumber? (text : Text) (pos : Nat) : Option (Json × Text × Nat) :=
  let (negative, body) := match text with
    | '-' :: rest => (true, rest)
    | _ => (false, text)
  let whole := match body with
    | '0' :: _ => ['0']
    | _ => body.takeWhile Char.isDigit
  if whole.isEmpty then none
  else
    let rest := body.drop whole.length
    let fraction := places rest
    let taken := if fraction.isEmpty then 0 else fraction.length + 1
    let rest := rest.drop taken
    let power := exponent? rest
    let stop := pos + (if negative then 1 else 0) + whole.length + taken
    match power with
    | some (below, ds, n) =>
      let x : Int := if below then -(digitsValue ds : Int) else digitsValue ds
      some (.double (.ofDecimal negative (digitsValue (whole ++ fraction)) (x - fraction.length)),
        rest.drop n, stop + n)
    | none =>
      if fraction.isEmpty then
        let n : Int := digitsValue whole
        some (.int (if negative then -n else n), rest, stop)
      else
        some (.double (.ofDecimal negative (digitsValue (whole ++ fraction))
          (-(fraction.length : Int))), rest, stop)

/-! ## Documents -/

/-- The words that are documents. -/
def readWord? : Text → Option (Json × Nat × Text)
  | 'n' :: 'u' :: 'l' :: 'l' :: rest => some (.null, 4, rest)
  | 't' :: 'r' :: 'u' :: 'e' :: rest => some (.bool true, 4, rest)
  | 'f' :: 'a' :: 'l' :: 's' :: 'e' :: rest => some (.bool false, 5, rest)
  | 'N' :: 'a' :: 'N' :: rest => some (.double .nan, 3, rest)
  | 'I' :: 'n' :: 'f' :: 'i' :: 'n' :: 'i' :: 't' :: 'y' :: rest =>
    some (.double (.infinite false), 8, rest)
  | '-' :: 'I' :: 'n' :: 'f' :: 'i' :: 'n' :: 'i' :: 't' :: 'y' :: rest =>
    some (.double (.infinite true), 9, rest)
  | _ => none

mutual

/-- Reads a document; `fuel` bounds how many values and lists may follow or hold one another, and
`depth` how many lists and objects may hold one another. -/
def readValue (fuel depth : Nat) (text : Text) (pos : Nat) : Except Stop (Json × Text × Nat) :=
  match fuel with
  | 0 => .error (.refused (.noValue, pos))
  | fuel + 1 =>
    match text with
    | '"' :: rest =>
      match readString pos [] (pos + 1) rest with
      | .error e => .error (.refused e)
      | .ok (s, rest, pos) => .ok (.str s, rest, pos)
    | '[' :: rest =>
      match depth with
      | 0 => .error (.beyond .depth)
      | depth + 1 =>
        let (rest, pos) := skipSpace rest (pos + 1)
        match rest with
        | ']' :: rest => .ok (.arr [], rest, pos + 1)
        | _ =>
          match readItems fuel depth rest pos with
          | .error e => .error e
          | .ok (items, rest, pos) => .ok (.arr items, rest, pos)
    | '\x7b' :: rest =>
      match depth with
      | 0 => .error (.beyond .depth)
      | depth + 1 =>
        let (rest, pos) := skipSpace rest (pos + 1)
        match rest with
        | '\x7d' :: rest => .ok (.obj [], rest, pos + 1)
        | _ =>
          match readEntries fuel depth [] rest pos with
          | .error e => .error e
          | .ok (entries, rest, pos) => .ok (.obj entries, rest, pos)
    | _ =>
      match readWord? text with
      | some (v, n, rest) => .ok (v, rest, pos + n)
      | none =>
        match readNumber? text pos with
        | some (v, rest, stop) =>
          if v.isShort then .ok (v, rest, stop) else .error (.beyond .digits)
        | none => .error (.refused (.noValue, pos))
termination_by structural fuel

/-- Reads the items of a list up to and with its closing bracket. -/
def readItems (fuel depth : Nat) (text : Text) (pos : Nat) :
    Except Stop (List Json × Text × Nat) :=
  match fuel with
  | 0 => .error (.refused (.noValue, pos))
  | fuel + 1 =>
    match readValue fuel depth text pos with
    | .error e => .error e
    | .ok (v, rest, pos) =>
      let (rest, pos) := skipSpace rest pos
      match rest with
      | ']' :: rest => .ok ([v], rest, pos + 1)
      | ',' :: rest =>
        let (rest, pos) := skipSpace rest (pos + 1)
        match readItems fuel depth rest pos with
        | .error e => .error e
        | .ok (vs, rest, pos) => .ok (v :: vs, rest, pos)
      | _ => .error (.refused (.noComma, pos))
termination_by structural fuel

/-- Reads the entries of an object up to and with its closing brace, adding to those in `done`. -/
def readEntries (fuel depth : Nat) (done : List (String × Json)) (text : Text) (pos : Nat) :
    Except Stop (List (String × Json) × Text × Nat) :=
  match fuel with
  | 0 => .error (.refused (.noName, pos))
  | fuel + 1 =>
    match text with
    | '"' :: rest =>
      match readString pos [] (pos + 1) rest with
      | .error e => .error (.refused e)
      | .ok (key, rest, pos) =>
        let (rest, pos) := skipSpace rest pos
        match rest with
        | ':' :: rest =>
          let (rest, pos) := skipSpace rest (pos + 1)
          match readValue fuel depth rest pos with
          | .error e => .error e
          | .ok (v, rest, pos) =>
            let (rest, pos) := skipSpace rest pos
            let done := put done key v
            match rest with
            | '\x7d' :: rest => .ok (done, rest, pos + 1)
            | ',' :: rest =>
              let (rest, pos) := skipSpace rest (pos + 1)
              readEntries fuel depth done rest pos
            | _ => .error (.refused (.noComma, pos))
        | _ => .error (.refused (.noColon, pos))
    | _ => .error (.refused (.noName, pos))
termination_by structural fuel

end

/-! ## Pairs of units -/

/-- The UTF-16 units that a document spells by their numbers, with `0` for any other character. -/
def spelledUnits : Text → List Nat
  | '\\' :: 'u' :: a :: b :: c :: d :: rest => (unit? a b c d).getD 0 :: spelledUnits rest
  | '\\' :: _ :: rest => 0 :: spelledUnits rest
  | _ :: rest => 0 :: spelledUnits rest
  | [] => []

/-- A character that is no backslash spells no unit. -/
theorem spelledUnits_cons {c : Char} (hc : c ≠ '\\') (rest : Text) :
    spelledUnits (c :: rest) = 0 :: spelledUnits rest := by
  rw [spelledUnits]
  · rintro a b d e more rfl
    exact absurd rfl hc
  · rintro d more rfl
    exact absurd rfl hc

/-- The first unit of a pair. -/
def isHigh (n : Nat) : Bool := 0xd800 ≤ n && n < 0xdc00

/-- The second unit of a pair. -/
def isLow (n : Nat) : Bool := 0xdc00 ≤ n && n < 0xe000

/-- All units of pairs have their partners, the first one also the one in front if that is
`waiting`. -/
def paired (waiting : Bool) : List Nat → Bool
  | [] => !waiting
  | n :: rest => isLow n == waiting && paired (isHigh n) rest

/-! ## Texts -/

/-- **Reads a text that is one document**, in which at most `depth` lists and objects may hold one
another. -/
def read (depth : Nat) (text : Text) : Except Unread Json :=
  match text with
  | '\ufeff' :: _ => .error (.malformed (.at text .byteOrderMark 0))
  | _ =>
    let (rest, pos) := skipSpace text 0
    match readValue (2 * text.length + 2) depth rest pos with
    | .error stop => .error (stop.unread text)
    | .ok (v, rest, pos) =>
      match skipSpace rest pos with
      | ([], _) => if paired false (spelledUnits text) then .ok v else .error (.beyond .pairs)
      | (_, pos) => .error (.malformed (.at text .moreData pos))

end Sigil.Json
