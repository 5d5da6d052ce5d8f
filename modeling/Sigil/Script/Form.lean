import Sigil.Script.Token
import Sigil.Tree

/-!
# Script/Form — grammars as data

A `Form` says what may stand at a place of a script, and which parts of it become nodes of the tree.
Forms are built from tokens by sequence, ordered choice, repetition, lookahead and the names of
rules; a grammar gives a form to every rule.  Only the nodes that the renaming pass looks at are
built: everything else is read and passed over, its private names falling to the node around it.
-/

namespace Sigil.Script

/-- What the grammars have names for. -/
inductive Rule where
  | statement | block | semicolon | bindings | classRest | classBody | importRest | exportRest
  | forHead | typedDeclaration
  | expression | assignment | chain | operand | primary | arguments | template | arrowHead
  | objectLiteral | arrayLiteral | propertyName | decorator | memberPart | parameters | pattern
  | element | markupAttribute
  | type | unionType | unaryType | primaryType | typeArguments | typeParameters | colonType
  | objectType | entityName
deriving DecidableEq, Hashable, Repr

/-- What may differ between dialects. -/
inductive Feature where
  /-- Types may be written. -/
  | types
  /-- Markup elements may stand as operands. -/
  | markup
deriving DecidableEq, Repr

/-- What may stand at a place of a script. -/
inductive Form where
  /-- A token; a private name becomes a node. -/
  | token (t : Token)
  /-- One form after another. -/
  | seq (parts : List Form)
  /-- The first form that can be read.  Once it has been read, no other is tried. -/
  | first (options : List Form)
  /-- Either form; the second is tried also when what follows the first cannot be read. -/
  | either (a b : Form)
  /-- A form as often as it can be read. -/
  | many (f : Form)
  /-- One of two forms, by whether a third could be read here. -/
  | ifAhead (test yes no : Form)
  /-- What a rule says. -/
  | rule (r : Rule)
  /-- A form whose private names and nodes become the children of one node. -/
  | node (kind : Kind) (f : Form)
  /-- A form whose last node is also found in a field of the node around it. -/
  | field (slot : Field) (f : Form)
  /-- One of two forms, by what the dialect allows. -/
  | ifAllowed (feature : Feature) (yes no : Form)

namespace Form

/-- Nothing. -/
def empty : Form := .seq []

/-- What cannot be read. -/
def never : Form := .first []

/-- A form, if it can be read. -/
def opt (f : Form) : Form := .first [f, empty]

/-- A form once or more often. -/
def many1 (f : Form) : Form := .seq [f, .many f]

/-- A form, and again after each separator. -/
def separated (f separator : Form) : Form := .seq [f, .many (.seq [separator, f])]

/-- Nothing, where a form could be read. -/
def ahead (f : Form) : Form := .ifAhead f empty never

/-- Nothing, where a form could not be read. -/
def notAhead (f : Form) : Form := .ifAhead f never empty

/-- A sign. -/
def sign (s : String) : Form := .token (.sign s.toList [])

/-- A sign that none of the given characters follows. -/
def signNotBefore (s : String) (notBefore : List Char) : Form :=
  .token (.sign s.toList notBefore)

/-- A word. -/
def word (s : String) : Form := .token (.word s.toList)

/-- One of several words. -/
def words (ss : List String) : Form := .first (ss.map word)

/-- A form between braces. -/
def braced (f : Form) : Form := .seq [sign "\x7b", f, sign "\x7d"]

/-- A form between round brackets. -/
def bracketed (f : Form) : Form := .seq [sign "(", f, sign ")"]

/-- A form where the dialect has types, and nothing elsewhere. -/
def ifTyped (f : Form) : Form := .ifAllowed .types f empty

/-- A form where the dialect has types; elsewhere it cannot be read. -/
def onlyTyped (f : Form) : Form := .ifAllowed .types f never

/-- Items with commas between them, commas being free to stand alone. -/
def loose (item : Form) : Form :=
  .seq [.many (sign ","), opt (.seq [item, .many (.seq [many1 (sign ","), item]),
    .many (sign ",")])]

/-- Items with commas between them and possibly one at the end. -/
def listed (item : Form) : Form :=
  opt (.seq [item, .many (.seq [sign ",", item]), opt (sign ",")])

end Form

end Sigil.Script
