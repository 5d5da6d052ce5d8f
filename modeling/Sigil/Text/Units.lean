import Sigil.Text
import Sigil.Total

/-!
# Text/Units — the length of a text in UTF-16 units and in UTF-8 bytes

A character above U+FFFF takes two units.  `ByteIndex` turns byte offsets into character offsets: it
keeps, for every character of more than one byte, the byte offset just past it and how many bytes
more than characters there are up to that point.
-/

namespace Sigil.Text

/-- UTF-16 units of a character. -/
def unitWidth (c : Char) : Nat := if 0xffff < c.toNat then 2 else 1

/-- Length in UTF-16 units. -/
def unitLength (t : Text) : Nat := total unitWidth t

@[simp] theorem unitLength_nil : unitLength [] = 0 := rfl

@[simp] theorem unitLength_cons (c : Char) (t : Text) :
    unitLength (c :: t) = unitWidth c + unitLength t := rfl

@[simp] theorem unitLength_append (s t : Text) :
    unitLength (s ++ t) = unitLength s + unitLength t :=
  total_append unitWidth s t

/-- Length in UTF-8 bytes. -/
def byteLength (t : Text) : Nat := total Char.utf8Size t

@[simp] theorem byteLength_nil : byteLength [] = 0 := rfl

@[simp] theorem byteLength_cons (c : Char) (t : Text) :
    byteLength (c :: t) = c.utf8Size + byteLength t := rfl

@[simp] theorem byteLength_append (s t : Text) :
    byteLength (s ++ t) = byteLength s + byteLength t :=
  total_append Char.utf8Size s t

/-- The end of a character of more than one byte. -/
structure WideEnd where
  /-- Byte offset just past the character. -/
  stop : Nat
  /-- Bytes minus characters up to there. -/
  extra : Nat
deriving DecidableEq, Repr, Inhabited

/-- The ends of the wide characters of a text that starts at a byte offset, with some extra bytes
before it. -/
def wideEnds (offset extra : Nat) : Text → List WideEnd
  | [] => []
  | c :: rest =>
    let w := c.utf8Size
    if 0x7f < c.toNat then
      ⟨offset + w, extra + (w - 1)⟩ :: wideEnds (offset + w) (extra + (w - 1)) rest
    else wideEnds (offset + w) extra rest

/-- What is needed to turn byte offsets into character offsets. -/
structure ByteIndex where
  /-- Every character is one byte long. -/
  plain : Bool
  /-- The ends of the wide characters, ascending. -/
  wide : List WideEnd
deriving DecidableEq, Repr, Inhabited

namespace ByteIndex

/-- The index of a text. -/
def ofText (t : Text) : ByteIndex where
  plain := t.byteLength = t.length
  wide := wideEnds 0 0 t

/-- The extra bytes up to a byte offset. -/
def extraUpTo (ix : ByteIndex) (offset : Int) : Nat :=
  match (ix.wide.takeWhile fun w : WideEnd => (w.stop : Int) ≤ offset).getLast? with
  | some w => w.extra
  | none => 0

/-- The character offset of a byte offset. -/
def toOffset (ix : ByteIndex) (offset : Int) : Int :=
  if ix.plain then offset else offset - ix.extraUpTo offset

end ByteIndex

end Sigil.Text
