import Sigil.Text.Quoted

/-!
# SourceMap/Vlq — integers as base-64 digits of variable length

An integer is folded into a natural number, its sign in the lowest bit, and written as groups of
five bits, lowest group first; every group but the last has 32 added.  Each group is one base-64
digit, so a list of integers is written without separators.
-/

namespace Sigil.Vlq

/-- The base-64 digit of a number below 64. -/
def digit (d : Nat) : Char :=
  if d < 26 then Char.ofNat (65 + d)
  else if d < 52 then Char.ofNat (71 + d)
  else if d < 62 then Char.ofNat (d - 4)
  else if d = 62 then '+' else '/'

/-- The number of a base-64 digit. -/
def digitValue? (c : Char) : Option Nat :=
  if 'A' ≤ c ∧ c ≤ 'Z' then some (c.toNat - 65)
  else if 'a' ≤ c ∧ c ≤ 'z' then some (c.toNat - 71)
  else if '0' ≤ c ∧ c ≤ '9' then some (c.toNat + 4)
  else if c = '+' then some 62
  else if c = '/' then some 63
  else none

/-- An integer as a natural number, the sign in the lowest bit. -/
def fold (v : Int) : Nat := if v < 0 then 2 * v.natAbs + 1 else 2 * v.natAbs

/-- The integer that was folded. -/
def unfold (n : Nat) : Int := if n % 2 = 1 then -((n / 2 : Nat) : Int) else (n / 2 : Nat)

/-- The groups of five bits of a number, lowest first, all but the last with 32 added. -/
def groups (n : Nat) : List Nat :=
  if n < 32 then [n] else (n % 32 + 32) :: groups (n / 32)
termination_by n
decreasing_by omega

/-- An integer as base-64 digits. -/
def encodeValue (v : Int) : Text := (groups (fold v)).map digit

/-- A list of integers as base-64 digits. -/
def encode (vs : List Int) : Text := vs.flatMap encodeValue

/-- Why a segment cannot be decoded. -/
inductive Flaw where
  /-- A character is no base-64 digit. -/
  | character (c : Char) (segment : Text)
  /-- The last value goes on past the end. -/
  | truncated (segment : Text)
deriving DecidableEq, Repr

/-- The wording of a flaw. -/
def Flaw.message : Flaw → String
  | .character c segment =>
      "Invalid base64 character " ++ Text.quoted [c] ++ " in mappings segment " ++
        Text.quoted segment
  | .truncated segment => "Truncated VLQ value in mappings segment " ++ Text.quoted segment

/-- Decodes the rest of a segment; `n` is what the groups of the present value add up to so far, and
`shift` the place of its next group. -/
def decodeFrom (segment : Text) (n shift : Nat) : Text → Except Flaw (List Int)
  | [] => if shift = 0 then .ok [] else .error (.truncated segment)
  | c :: rest =>
    match digitValue? c with
    | none => .error (.character c segment)
    | some d =>
      let n := n + (d % 32) <<< shift
      if 32 ≤ d then decodeFrom segment n (shift + 5) rest
      else
        match decodeFrom segment 0 0 rest with
        | .error e => .error e
        | .ok vs => .ok (unfold n :: vs)

/-- **Decodes a segment.** -/
def decode (segment : Text) : Except Flaw (List Int) := decodeFrom segment 0 0 segment

end Sigil.Vlq
