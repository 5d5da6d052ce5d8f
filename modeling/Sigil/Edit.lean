import Sigil.Text

/-!
# Edit — replacing spans of a text in one pass

An edit replaces the span `[start, stop)` of a text by `newText`; its offsets refer to the text
before any edit.  `patch` sorts a list of edits by their starts, keeping the order of equal ones,
and copies the text once, replacing as it goes.  Spans that overlap or leave the text are refused.
-/

namespace Sigil

/-- One replacement of the span `[start, stop)`. -/
structure Edit where
  /-- Offset of the first replaced character. -/
  start : Int
  /-- Offset just past the last replaced character. -/
  stop : Int
  /-- What stands in the span's place afterwards. -/
  newText : Text
deriving DecidableEq, Repr, Inhabited

namespace Edit

/-- How many characters the edit replaces. -/
def originalLength (e : Edit) : Int := e.stop - e.start

/-- How much longer the edit makes the text. -/
def growth (e : Edit) : Int := e.newText.length - e.originalLength

/-- Edits ordered by start; edits with one start keep their order. -/
def sorted (edits : List Edit) : List Edit :=
  edits.mergeSort fun a b => decide (a.start ≤ b.start)

/-- Why a list of edits does not fit a text. -/
inductive Misfit where
  /-- An edit starts before the previous one ends. -/
  | overlap (start previousStop : Int)
  /-- A span runs backwards or past the end of the text. -/
  | outside (start stop : Int) (length : Nat)
deriving DecidableEq, Repr

/-- The wording of a misfit. -/
def Misfit.message : Misfit → String
  | .overlap start previousStop =>
      "Overlapping edit at " ++ toString start ++
        " (previous edit ends at " ++ toString previousStop ++ ")"
  | .outside start stop length =>
      "Edit span [" ++ toString start ++ ", " ++ toString stop ++
        ") is outside the text (length " ++ toString length ++ ")"

/-- Copies `text` from `done` on, replacing the spans of the edits in the order given. -/
def patchFrom (text : Text) (done : Int) : List Edit → Except Misfit Text
  | [] => .ok (text.slice done text.length)
  | e :: rest =>
    if e.start < done then .error (.overlap e.start done)
    else if e.stop < e.start ∨ (text.length : Int) < e.stop then
      .error (.outside e.start e.stop text.length)
    else
      match patchFrom text e.stop rest with
      | .error m => .error m
      | .ok tail => .ok (text.slice done e.start ++ e.newText ++ tail)

/-- **The edited text.**  The edits may come in any order. -/
def patch (text : Text) (edits : List Edit) : Except Misfit Text :=
  patchFrom text 0 (sorted edits)

end Edit

end Sigil
