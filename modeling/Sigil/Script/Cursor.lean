import Sigil.Text
import Sigil.Script.Character

/-!
# Script/Cursor — a place in a script, and the blanks and comments after it

A cursor stands just behind the last token.  It knows the text from there on, and also the text from
the next token on, with the number of characters between and whether a line ends among them: a line
end can close a statement.
-/

namespace Sigil.Script

/-- Blanks and comments in front of a token. -/
structure Gap where
  /-- How many characters they take. -/
  length : Nat := 0
  /-- Whether a line ends among them. -/
  newline : Bool := false
deriving DecidableEq, Repr, Inhabited

/-- Where a scan over blanks and comments stands. -/
inductive GapMode where
  /-- Between comments. -/
  | blank
  /-- In a comment that the end of the line closes. -/
  | line
  /-- In a comment that `*/` closes; `seen` is the gap up to the last character read. -/
  | block (seen : Gap)
deriving DecidableEq, Repr

/-- The gap at the front of a text.  A comment that is never closed is no part of it. -/
def Gap.scan : GapMode → Gap → Text → Gap
  | .blank, g, '/' :: '/' :: rest => scan .line { g with length := g.length + 2 } rest
  | .blank, g, '/' :: '*' :: rest => scan (.block { g with length := g.length + 2 }) g rest
  | .blank, g, c :: rest =>
    if isBlank c then scan .blank ⟨g.length + 1, g.newline || isLineEnd c⟩ rest else g
  | .line, g, c :: rest =>
    if isLineEnd c then scan .blank ⟨g.length + 1, true⟩ rest
    else scan .line { g with length := g.length + 1 } rest
  | .block seen, _, '*' :: '/' :: rest => scan .blank { seen with length := seen.length + 2 } rest
  | .block seen, g, c :: rest =>
    scan (.block ⟨seen.length + 1, seen.newline || isLineEnd c⟩) g rest
  | _, g, [] => g

/-- A place just behind a token. -/
structure Cursor where
  /-- Offset of the place. -/
  offset : Nat
  /-- The text behind the last token. -/
  rest : Text
  /-- The gap in front of the next token. -/
  gap : Gap
  /-- The text from the next token on. -/
  ahead : Text
deriving Repr, Inhabited

namespace Cursor

/-- The cursor at an offset, in front of a text. -/
def atOffset (offset : Nat) (rest : Text) : Cursor :=
  let gap := Gap.scan .blank {} rest
  ⟨offset, rest, gap, rest.drop gap.length⟩

/-- Offset of the next token. -/
def next (c : Cursor) : Nat := c.offset + c.gap.length

end Cursor

end Sigil.Script
