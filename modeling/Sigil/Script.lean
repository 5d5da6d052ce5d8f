import Sigil.Reading
import Sigil.Script.Grammar
import Sigil.Script.Machine

/-!
# Script — reading a script into a tree

`Script.read` reads a whole text by the grammar of a dialect.  A text that does not fit the grammar
gives no tree but the offset of the farthest place that made sense; `Script.parse` then hands over
an empty tree, so that all names of a broken script stay as they are.
-/

namespace Sigil.Script

/-- What a dialect allows. -/
def allows (l : Language) : Feature → Bool
  | .types => l.typed
  | .markup => l.markup

/-- A number of steps that no sensible reading of a text comes near. -/
def stepLimit (text : Text) : Nat := 100000 * (text.length + 1)

/-- Reads a whole text. -/
def read (l : Language) (text : Text) : Outcome :=
  Machine.run (allows l) grammar (stepLimit text) (Machine.start text Grammar.script)

/-- The place of an offset. -/
def placeOf (text : Text) (offset : Nat) : Place :=
  let before := text.take offset
  ⟨before.count '\n' + 1, (before.reverse.takeWhile (· ≠ '\n')).length⟩

/-- **The parser for scripts.** -/
def parse : Parser (Node Kind) := fun l text =>
  match read l text with
  | .done root => ⟨root, none⟩
  | .stuck offset => ⟨.mk .other 0 text.length [] [] [], some (placeOf text offset)⟩

end Sigil.Script
