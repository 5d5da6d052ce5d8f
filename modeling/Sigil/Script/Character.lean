/-!
# Script/Character — the classes of characters that scripts are made of

Names are open-ended: whatever is not a control character, a blank, a digit in front, or one of the
signs that scripts give a meaning may stand in a name.
-/

namespace Sigil.Script

/-- Ends a line. -/
def isLineEnd (c : Char) : Bool :=
  c = '\n' || c = '\r' || c = '\u2028' || c = '\u2029'

/-- Separates tokens and means nothing else. -/
def isBlank (c : Char) : Bool :=
  (9 ≤ c.toNat && c.toNat ≤ 13) || c = ' ' || c = '\u00a0' || c = '\u1680' ||
    (0x2000 ≤ c.toNat && c.toNat ≤ 0x200b) || c = '\u2028' || c = '\u2029' || c = '\u202f' ||
    c = '\u205f' || c = '\u2060' || c = '\u3000' || c = '\ufeff'

/-- The signs that never stand in a name. -/
def signs : List Char :=
  [':', ';', '\x60', '"', '\x27', '@', '#', '.', ',', '|', '^', '&', '<', '=', '>', '+', '-', '*',
    '/', '\\', '%', '?', '!', '~', '(', ')', '[', ']', '\x7b', '\x7d']

/-- Stands anywhere in a name. -/
def isNamePart (c : Char) : Bool :=
  0x20 ≤ c.toNat && !isBlank c && !signs.contains c

/-- Stands at the front of a name. -/
def isNameStart (c : Char) : Bool := isNamePart c && !c.isDigit

/-- A digit in base sixteen. -/
def isHexDigit (c : Char) : Bool :=
  c.isDigit || ('a' ≤ c && c ≤ 'f') || ('A' ≤ c && c ≤ 'F')

end Sigil.Script
