import Sigil.Json.Writer
import Sigil.Text.Quoted

/-!
# Json/Display — documents as messages show them

A message shows a string bare and any other value in its literal form, strings inside it in quotes.
-/

namespace Sigil.Json

mutual

/-- The literal form of a value. -/
def literal : Json → String
  | .null => "None"
  | .bool b => if b then "True" else "False"
  | .int i => toString i
  | .double d => d.text
  | .str s => Text.quoted s.toList
  | .arr items => "[" ++ literalItems items ++ "]"
  | .obj entries => "\x7b" ++ literalEntries entries ++ "\x7d"

/-- The literal forms of the items of a list. -/
def literalItems : List Json → String
  | [] => ""
  | [x] => literal x
  | x :: rest => literal x ++ ", " ++ literalItems rest

/-- The literal forms of the entries of an object. -/
def literalEntries : List (String × Json) → String
  | [] => ""
  | [(k, v)] => Text.quoted k.toList ++ ": " ++ literal v
  | (k, v) :: rest =>
    Text.quoted k.toList ++ ": " ++ literal v ++ ", " ++ literalEntries rest

end

/-- The form a value has in running text. -/
def display : Json → String
  | .str s => s
  | v => v.literal

end Sigil.Json
