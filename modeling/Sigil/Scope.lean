import Sigil.ShortName

/-!
# Scope — replacement names for the private names of nested classes

A class opens a table that gives each private name it declares a fresh short name.  Open tables form
a stack, innermost first, and a name is looked up from the inside out.  One counter numbers the
fresh names of all tables; closing a class never gives a number back.
-/

namespace Sigil

/-- Private names and their replacements, for one class, in order of declaration. -/
abbrev ScopeTable := List (Text × Text)

/-- The open classes, innermost first, and how many short names have been handed out. -/
structure Scopes where
  /-- How many short names have been handed out. -/
  count : Nat := 0
  /-- The tables of the open classes, innermost first. -/
  tables : List ScopeTable := []
deriving DecidableEq, Repr, Inhabited

namespace Scopes

/-- How many classes are open. -/
def depth (s : Scopes) : Nat := s.tables.length

/-- Hands out the next short name. -/
def draw (s : Scopes) : Text × Scopes :=
  (ShortName.name s.count, { s with count := s.count + 1 })

/-- Extends a table by the names it lacks, numbering them from `n`; a repeated name is declared
once. -/
def declare (n : Nat) (table : ScopeTable) : List Text → Nat × ScopeTable
  | [] => (n, table)
  | x :: xs =>
    if (table.lookup x).isSome then declare n table xs
    else declare (n + 1) (table ++ [(x, ShortName.name n)]) xs

/-- Opens a class that declares `names`; its table is on top of the result. -/
def enter (s : Scopes) (names : List Text) : ScopeTable × Scopes :=
  let (n, table) := declare s.count [] names
  (table, ⟨n, table :: s.tables⟩)

/-- Closes the innermost class, if one is open. -/
def exit? (s : Scopes) : Option (ScopeTable × Scopes) :=
  match s.tables with
  | [] => none
  | table :: rest => some (table, { s with tables := rest })

/-- The replacement that the innermost table holding `x` gives to it. -/
def resolve (s : Scopes) (x : Text) : Option Text :=
  s.tables.findSome? (·.lookup x)

end Scopes

end Sigil
