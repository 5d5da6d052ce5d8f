import Sigil.Convert
import Sigil.Json.Reader
import Sigil.Json.Writer
import Sigil.Text.Blank
import Sigil.Text.Lines

/-!
# Telemetry — events about conversions, in memory and in a file

Every event bears the moment at which it was recorded; it is kept in memory and, if there is a file,
written to its end as one line.  The events in memory are handed out as a list of its own, so what
becomes of that list is nothing to the collector.  Loading reads every line of the file that is a
document; blank lines are passed over, and lines that are no documents are reported and passed over.
-/

namespace Sigil.Telemetry

/-- The keys and values of one event. -/
abbrev Event := List (String × Json)

/-- An event of a moment.  Extra entries replace those of the same name. -/
def event (moment : Double) (metric value filename : Json) (extra : List (String × Json)) : Event :=
  extra.foldl (fun e kv => Json.put e kv.1 kv.2)
    [("timestamp", .double moment), ("metric", metric), ("value", value), ("filename", filename)]

/-- The events of one conversion.  The clock is read for each of them. -/
def conversionEvents (clock : Nat → Double) (filename classes fields edits elapsed : Json) :
    List Event :=
  [event (clock 0) (.str "class_count") classes filename [],
    event (clock 1) (.str "field_count") fields filename [],
    event (clock 2) (.str "edit_count") edits filename [],
    event (clock 3) (.str "elapsed_ms") elapsed filename []]

/-- The line of an event. -/
def line (e : Event) : Text := (Json.obj e).write.toList ++ ['\n']

/-- A collector: the number of its list of events, and whether it writes to the file. -/
structure Collector where
  /-- Whether events are written to the file. -/
  toFile : Bool
  /-- The number of the list of the events recorded so far. -/
  own : Nat
deriving DecidableEq, Repr

/-- A collector, the lists of events that there are, and the text of the file if it is there. -/
structure Store where
  /-- The collector. -/
  collector : Collector
  /-- All lists of events, by their numbers. -/
  lists : List (List Event)
  /-- The numbers of the lists that were handed out. -/
  copies : List Nat := []
  /-- The text of the file. -/
  file : Option Text := none
deriving Repr

namespace Store

/-- A new collector without a file. -/
def start (toFile : Bool) : Store where
  collector := ⟨toFile, 0⟩
  lists := [[]]

/-- The events in a list. -/
def list (s : Store) (n : Nat) : List Event := s.lists[n]?.getD []

/-- The events that were recorded through the collector. -/
def events (s : Store) : List Event := s.list s.collector.own

/-- Changes a list. -/
def change (s : Store) (n : Nat) (f : List Event → List Event) : Store :=
  { s with lists := s.lists.modify n f }

/-- Records an event. -/
def record (s : Store) (e : Event) : Store :=
  { s.change s.collector.own (· ++ [e]) with
    file := if s.collector.toFile then some (s.file.getD [] ++ line e) else s.file }

/-- Records several events. -/
def recordAll (s : Store) (es : List Event) : Store := es.foldl record s

/-- **Hands out the events**, as a list of its own. -/
def handOut (s : Store) : Store :=
  { s with lists := s.lists ++ [s.events], copies := s.copies ++ [s.lists.length] }

/-- Changes one of the lists that were handed out. -/
def changeCopy (s : Store) (i : Nat) (f : List Event → List Event) : Store :=
  match s.copies[i]? with
  | none => s
  | some n => s.change n f

/-- A new collector over the same file. -/
def reopen (s : Store) : Store :=
  { s with collector := ⟨s.collector.toFile, s.lists.length⟩, lists := s.lists ++ [[]] }

/-- Text put to the end of the file by someone else. -/
def append (s : Store) (t : Text) : Store := { s with file := some (s.file.getD [] ++ t) }

/-- The file taken away. -/
def remove (s : Store) : Store := { s with file := none }

end Store

/-! ## Loading -/

/-- The lines of a file's text, without white space around them, blank ones left out. -/
def filledLines (t : Text) : List Text :=
  ((Text.splitOn '\n' (Text.evenLines t)).map Text.strip).filter (!·.isEmpty)

/-- Reads lines, `depth` lists and objects in one another: the documents in them, and a notice for
every line that is none.  A document that cannot be held breaks it off. -/
def readLines (depth : Nat) (notice : Notice) :
    List Text → List Notice × Except Json.Limit (List Json)
  | [] => ([], .ok [])
  | line :: rest =>
    match Json.read depth line with
    | .ok v =>
      let (notices, result) := readLines depth notice rest
      (notices, result.map (v :: ·))
    | .error (.malformed _) =>
      let (notices, result) := readLines depth notice rest
      (notice :: notices, result)
    | .error (.beyond l) => ([], .error l)

/-- **Loads the file**, if the collector writes to one and it is there. -/
def Store.load (s : Store) (depth : Nat) (fileName : String) :
    List Notice × Except Json.Limit (List Json) :=
  match s.collector.toFile, s.file with
  | true, some t => readLines depth (.skipped fileName) (filledLines t)
  | _, _ => ([], .ok [])

end Sigil.Telemetry
