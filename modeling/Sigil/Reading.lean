import Sigil.Language
import Sigil.Notice
import Sigil.Tree

/-!
# Reading — what a parser hands over, and whether to go on with it

A parser always hands over a tree.  If the script was broken, it also says where the first fault is;
then strict callers stop, and others go on with the tree and a warning.
-/

namespace Sigil

/-- A tree and the place of the first fault, if there is one. -/
structure Reading (τ : Type) where
  /-- The root of the tree. -/
  root : τ
  /-- Where the script is broken. -/
  fault : Option Place

/-- A parser for every dialect. -/
abbrev Parser (τ : Type) := Language → Text → Reading τ

/-- A broken script. -/
structure Broken where
  /-- The script's file name. -/
  filename : String
  /-- Where it is broken. -/
  place : Place
deriving DecidableEq, Repr

/-- The wording of a broken script. -/
def Broken.message (b : Broken) : String :=
  b.filename ++ ":" ++ toString b.place.line ++ ":" ++ toString b.place.column ++ ": syntax error"

/-- Goes on with a reading, unless it is broken and the caller is strict. -/
def Reading.accept {τ : Type} (r : Reading τ) (filename : String) (strict : Bool) :
    List Notice × Except Broken τ :=
  match r.fault with
  | none => ([], .ok r.root)
  | some place =>
    if strict then ([], .error ⟨filename, place⟩)
    else ([.recovered filename place], .ok r.root)

end Sigil
