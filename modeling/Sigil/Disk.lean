import Sigil.Path

/-!
# Disk — a tree of folders and files, and what can go wrong with a path in it

A location lists the names on the way to it, innermost first, so its folder is its tail and the root
is empty.  A path is followed part by part, and every part but the last must lead to a folder that
is there.  `get?_put` is all that is needed to know about a changed disk.
-/

namespace Sigil

/-- A place on a disk: the names on the way there from the root, innermost first. -/
abbrev Location := List Text

/-- What is at a place. -/
inductive Entry where
  /-- A folder. -/
  | folder
  /-- A file with its bytes. -/
  | file (content : ByteArray)

/-- Two folders, or two files with the same bytes. -/
def Entry.same : Entry → Entry → Bool
  | .folder, .folder => true
  | .file a, .file b => a.data = b.data
  | _, _ => false

/-- Folders and files, and the folder in which relative paths start. -/
structure Disk where
  /-- What is where. -/
  entries : List (Location × Entry)
  /-- Where relative paths start. -/
  here : Location

/-- Why a path could not be used. -/
inductive Obstacle where
  /-- Nothing is there. -/
  | missing
  /-- Part of the way is a file. -/
  | notFolder
  /-- A folder is there. -/
  | folder
  /-- A file is there. -/
  | taken
deriving DecidableEq, Repr

namespace Disk

/-- What is at a place. -/
def get? (d : Disk) (l : Location) : Option Entry := d.entries.lookup l

/-- Entries with one put in, in the place of an earlier one for the same location. -/
def putIn (l : Location) (e : Entry) : List (Location × Entry) → List (Location × Entry)
  | [] => [(l, e)]
  | (k, x) :: rest => if k = l then (l, e) :: rest else (k, x) :: putIn l e rest

theorem lookup_putIn (l k : Location) (e : Entry) (es : List (Location × Entry)) :
    (putIn l e es).lookup k = if k = l then some e else es.lookup k := by
  induction es with
  | nil => by_cases h : k = l <;> simp [putIn, h]
  | cons x rest ih =>
    obtain ⟨j, y⟩ := x
    by_cases hj : j = l
    · subst hj
      by_cases hk : k = j
      · simp [putIn, hk]
      · simp [putIn, hk, List.lookup_cons, beq_false_of_ne hk]
    · by_cases hk : k = j
      · subst hk; simp [putIn, hj]
      · simp [putIn, hj, List.lookup_cons, ih, beq_false_of_ne hk]

/-- The disk with something put at a place. -/
def put (d : Disk) (l : Location) (e : Entry) : Disk :=
  { d with entries := putIn l e d.entries }

/-- **A change is seen at its place and nowhere else.** -/
theorem get?_put (d : Disk) (l k : Location) (e : Entry) :
    (d.put l e).get? k = if k = l then some e else d.get? k :=
  lookup_putIn l k e d.entries

@[simp] theorem here_put (d : Disk) (l : Location) (e : Entry) : (d.put l e).here = d.here := rfl

/-! ## Paths -/

/-- Where one part leads from a place. -/
def step (l : Location) (part : Text) : Location := if part = Path.up then l.tail else part :: l

/-- Where parts lead from a place. -/
def follow (d : Disk) : Location → List Text → Except Obstacle Location
  | l, [] => .ok l
  | l, part :: rest =>
    match d.get? l with
    | some .folder => d.follow (step l part) rest
    | some (.file _) => .error .notFolder
    | none => .error .missing

/-- Where a path starts. -/
def start (d : Disk) (path : Text) : Location := if Path.isAbsolute path then [] else d.here

/-- The place of a path. -/
def locate (d : Disk) (path : Text) : Except Obstacle Location :=
  d.follow (d.start path) (Path.parts path)

/-- What is at a path. -/
def at? (d : Disk) (path : Text) : Option Entry :=
  match d.locate path with
  | .ok l => d.get? l
  | .error _ => none

/-- Something is at a path. -/
def contains (d : Disk) (path : Text) : Bool := (d.at? path).isSome

/-- A path, as it is written, is that of a file. -/
def isFile (d : Disk) (path : Text) : Bool :=
  match d.at? path with
  | some (.file _) => !Path.endsInFolder path
  | _ => false

/-! ## Reading and writing -/

/-- The bytes of a file. -/
def read (d : Disk) (path : Text) : Except Obstacle ByteArray :=
  match d.locate path with
  | .error o => .error o
  | .ok l =>
    match d.get? l with
    | some (.file content) => .ok content
    | some .folder => .error .folder
    | none => .error .missing

/-- **Changes a file**, which is made if it is not there. -/
def change (d : Disk) (path : Text) (f : ByteArray → ByteArray) : Except Obstacle Disk :=
  match d.locate path with
  | .error o => .error o
  | .ok l =>
    match d.get? l with
    | some (.file content) => .ok (d.put l (.file (f content)))
    | some .folder => .error .folder
    | none => .ok (d.put l (.file (f ByteArray.empty)))

/-- A file with new content. -/
def write (d : Disk) (path : Text) (content : ByteArray) : Except Obstacle Disk :=
  d.change path fun _ => content

/-- A file with content put to its end. -/
def append (d : Disk) (path : Text) (content : ByteArray) : Except Obstacle Disk :=
  d.change path (· ++ content)

/-- Makes the folders that are missing on the way. -/
def makeWay (d : Disk) : Location → List Text → Except Obstacle Disk
  | l, [] =>
    match d.get? l with
    | some .folder => .ok d
    | some (.file _) => .error .taken
    | none => .ok (d.put l .folder)
  | l, part :: rest =>
    match d.get? l with
    | some .folder => d.makeWay (step l part) rest
    | some (.file _) => .error .notFolder
    | none => (d.put l .folder).makeWay (step l part) rest

/-- **Makes a folder** and those around it, as far as they are missing. -/
def makeFolder (d : Disk) (path : Text) : Except Obstacle Disk :=
  d.makeWay (d.start path) (Path.parts path)

end Disk

end Sigil
