import Sigil.Edit
import Sigil.Text.Lines
import Sigil.Text.Units

/-!
# Shift — what edits do to the columns of a line

Seen from its line, an edit replaces `originalLength` units at `column` by `newLength` units, all
counted in UTF-16 units.  Columns behind the replaced span move by the difference; columns strictly
inside it fall back to its start.
-/

namespace Sigil

/-- An edit as its line sees it, in UTF-16 units. -/
structure Shift where
  /-- Where the replaced span starts. -/
  column : Int
  /-- Length of the replaced span. -/
  originalLength : Int
  /-- Length of the replacement. -/
  newLength : Int
deriving DecidableEq, Repr, Inhabited

namespace Shift

/-- How much longer the line becomes. -/
def growth (s : Shift) : Int := s.newLength - s.originalLength

/-- The column to which a column moves, when everything before has moved by `moved`. -/
def adjustFrom (moved column : Int) : List Shift → Int
  | [] => column + moved
  | s :: rest =>
    if s.column + s.originalLength ≤ column then adjustFrom (moved + s.growth) column rest
    else if s.column < column then s.column + moved
    else column + moved

/-- **The column to which a column moves.** -/
def adjust (column : Int) (shifts : List Shift) : Int := adjustFrom 0 column shifts

/-- The shifts of sorted edits with their lines.  `column` is the UTF-16 column of `offset`, which
is on `line`. -/
def scan (text : Text) (starts : List Nat) (line offset : Int) (column : Nat) :
    List Edit → List (Int × Shift)
  | [] => []
  | e :: rest =>
    let l := (Text.position starts e.start).line
    let (offset, column) :=
      if l = line then (offset, column) else ((Text.lineStart starts e.start : Int), 0)
    let column := column + Text.unitLength (text.slice offset e.start)
    (l, ⟨column, Text.unitLength (text.slice e.start e.stop), Text.unitLength e.newText⟩) ::
      scan text starts l e.start column rest

/-- Neighbours with one line put together. -/
def group : List (Int × Shift) → List (Int × List Shift)
  | [] => []
  | (l, s) :: rest =>
    match group rest with
    | (l', ss) :: more => if l = l' then (l, s :: ss) :: more else (l, [s]) :: (l', ss) :: more
    | [] => [(l, [s])]

/-- **The shifts of every edited line**, lines counted from 0 and ascending. -/
def byLine (text : Text) (edits : List Edit) : List (Int × List Shift) :=
  group (scan text text.lineStarts (-1) 0 0 (Edit.sorted edits))

end Shift

end Sigil
