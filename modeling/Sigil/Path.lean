import Sigil.Text

/-!
# Path — file paths as text

A path is a text of parts between slashes.  Empty parts and single points mean nothing, and a
leading slash makes the path absolute.  `clean` writes a path with just the parts that mean
something.
-/

namespace Sigil.Path

/-- The parts of a path that mean something. -/
def parts (path : Text) : List Text :=
  (Text.splitOn '/' path).filter fun p => p ≠ [] && p ≠ ['.']

/-- The part that leads one folder up. -/
def up : Text := ['.', '.']

/-- The path starts at the root. -/
def isAbsolute : Text → Bool
  | '/' :: _ => true
  | _ => false

/-- What an absolute path starts with; exactly two slashes stay two. -/
def anchor : Text → Text
  | ['/', '/'] => ['/', '/']
  | '/' :: '/' :: c :: _ => if c = '/' then ['/'] else ['/', '/']
  | '/' :: _ => ['/']
  | _ => []

/-- Parts with slashes between them. -/
def join (ps : List Text) : Text := List.intercalate ['/'] ps

/-- A path from what it starts with and its parts. -/
def assemble (start : Text) (ps : List Text) : Text :=
  if start = [] ∧ ps = [] then ['.'] else start ++ join ps

/-- The path with just the parts that mean something; a single point if there are none. -/
def clean (path : Text) : Text := assemble (anchor path) (parts path)

/-- The path can only be that of a folder, by the way it is written. -/
def endsInFolder (path : Text) : Bool :=
  match (Text.splitOn '/' path).getLast? with
  | some p => p = [] || p = ['.']
  | none => true

/-- The last part; empty if there is none. -/
def name (path : Text) : Text := (parts path).getLast?.getD []

/-- The path beside a path whose name goes on with an ending; a path without a name has none. -/
def extend? (path ending : Text) : Option Text :=
  match (parts path).getLast? with
  | none => none
  | some last => some (assemble (anchor path) ((parts path).dropLast ++ [last ++ ending]))

/-- A path inside a folder. -/
def inside (folder name : Text) : Text := assemble (anchor folder) (parts folder ++ [name])

/-- The end of a name from its last point on, if there is something on both sides of the point. -/
def nameSuffix (name : Text) : Text :=
  let tail := name.reverse.takeWhile (· ≠ '.')
  if tail.isEmpty ∨ name.length ≤ tail.length + 1 then []
  else '.' :: tail.reverse

/-- The end of a path's name from its last point on. -/
def suffix (path : Text) : Text := nameSuffix (name path)

end Sigil.Path
