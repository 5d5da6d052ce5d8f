import Sigil.Text
import Sigil.Text.Unprintable

/-!
# Text/Quoted — a text in quotes, as messages show it

Single quotes stand around the text, or double quotes if it holds a single quote and no double one.
The quote in use and the backslash get a backslash in front; characters that do not show are written
by their code points.
-/

namespace Sigil.Text

/-- The last `width` hexadecimal digits of a number, in lower case. -/
def hex : Nat → Nat → Text
  | 0, _ => []
  | width + 1, n => hex width (n / 16) ++ [Nat.digitChar (n % 16)]

/-- The quote that stands around a text. -/
def quoteSign (t : Text) : Char :=
  if t.contains '\x27' && !t.contains '"' then '"' else '\x27'

/-- A character inside quotes of the given sign. -/
def showChar (quote c : Char) : Text :=
  if c = quote || c = '\\' then ['\\', c]
  else if c = '\n' then ['\\', 'n']
  else if c = '\r' then ['\\', 'r']
  else if c = '\t' then ['\\', 't']
  else if !isUnprintable c then [c]
  else if c.toNat < 0x100 then '\\' :: 'x' :: hex 2 c.toNat
  else if c.toNat < 0x10000 then '\\' :: 'u' :: hex 4 c.toNat
  else '\\' :: 'U' :: hex 8 c.toNat

/-- A text in quotes. -/
def quoted (t : Text) : String :=
  let q := quoteSign t
  String.ofList (q :: (t.flatMap (showChar q) ++ [q]))

end Sigil.Text
