import Sigil.Text

/-!
# Text/Lines — offsets as lines and columns

Lines and columns count from 0, and only a line feed ends a line.  An offset past the end belongs to
the last line.  An offset before the text has line `-1`, and its column is counted from the start of
the last line.  `evenLines` turns the other line ends into line feeds.
-/

namespace Sigil.Text

/-- Offsets just past the line feeds of a text that starts at offset `n`. -/
def startsFrom (n : Nat) : Text → List Nat
  | [] => []
  | c :: rest => if c = '\n' then (n + 1) :: startsFrom (n + 1) rest else startsFrom (n + 1) rest

/-- Offsets at which the lines of a text start. -/
def lineStarts (t : Text) : List Nat := 0 :: startsFrom 0 t

/-- Line and column. -/
structure Position where
  /-- Line, counted from 0. -/
  line : Int
  /-- Column, counted from 0. -/
  column : Int
deriving DecidableEq, Repr, Inhabited

/-- How many lines start at or before an offset. -/
def linesUpTo (starts : List Nat) (offset : Int) : Nat :=
  (starts.takeWhile fun s : Nat => (s : Int) ≤ offset).length

/-- Where the line starts that an offset is in. -/
def lineStart (starts : List Nat) (offset : Int) : Nat :=
  match linesUpTo starts offset with
  | 0 => starts.getLast?.getD 0
  | k + 1 => starts[k]?.getD 0

/-- The position of an offset, by the starts of the lines. -/
def position (starts : List Nat) (offset : Int) : Position :=
  ⟨linesUpTo starts offset - 1, offset - lineStart starts offset⟩

/-- Line ends made alike: each of `\r\n`, `\r` and `\n` becomes `\n`. -/
def evenLines : Text → Text
  | '\r' :: '\n' :: rest => '\n' :: evenLines rest
  | '\r' :: rest => '\n' :: evenLines rest
  | c :: rest => c :: evenLines rest
  | [] => []

/-- Text without carriage returns stays as it is. -/
theorem evenLines_eq_self {t : Text} (h : '\r' ∉ t) : evenLines t = t := by
  fun_induction evenLines t with
  | case1 => simp at h
  | case2 => simp at h
  | case3 c rest _ _ ih => rw [ih fun hc => h (List.mem_cons_of_mem _ hc)]
  | case4 => rfl

end Sigil.Text
