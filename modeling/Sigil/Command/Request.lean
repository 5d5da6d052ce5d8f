import Sigil.Convert
import Sigil.Disk

/-!
# Command/Request — what a command line asks for

A command line asks for help, for the list of transforms, or for a conversion; or it is misused.
What its words say (`Line`) is found by whoever reads them; here it is held against the disk and the
environment.  Files that a conversion is to read must be there.  The folder for events may also come
from a variable of the environment; the option counts before the variable, and an empty variable
counts as none.
-/

namespace Sigil.Command

/-- A conversion that is asked for. -/
structure Request where
  /-- The script. -/
  input : Text
  /-- Where the rewritten script goes, if not in place of the script. -/
  output : Option Text := none
  /-- The script's source map, if it is not beside the script. -/
  sourceMap : Option Text := none
  /-- Where the adjusted source map goes. -/
  mapOutput : Option Text := none
  /-- The script's dialect, if its name does not tell. -/
  language : Option Language := none
  /-- Refuse a broken script. -/
  strict : Bool := false
  /-- The folder for events. -/
  telemetryDir : Option Text := none
deriving DecidableEq, Repr

namespace Request

/-- The script's name in reports. -/
def filename (r : Request) : String := String.ofList (Path.clean r.input)

/-- How the script is to be read. -/
def options (r : Request) : ConvertOptions where
  filename := r.filename
  language := r.language.getD (Language.ofFileName r.input .javascript)
  strict := r.strict

/-- Where the rewritten script goes. -/
def target (r : Request) : Text := r.output.getD r.input

/-- The ending of a source map's name. -/
def mapEnding : Text := ".map".toList

/-- The source map that is used, if there is one: the given one, or the one beside the script. -/
def mapSource? (r : Request) (d : Disk) : Option Text :=
  match r.sourceMap with
  | some path => some path
  | none => (Path.extend? r.input mapEnding).filter d.contains

/-- Where the adjusted source map goes: where it is told to, or beside the output, or in place of
the map.  An output without a name has nothing beside it. -/
def mapTarget? (r : Request) (source : Text) : Option Text :=
  match r.mapOutput, r.output with
  | some path, _ => some path
  | none, some output => Path.extend? output mapEnding
  | none, none => some source

/-- The name of the file for events. -/
def telemetryFile : Text := "telemetry.jsonl".toList

end Request

/-- What a command line asks for. -/
inductive Invocation where
  /-- An explanation. -/
  | help
  /-- The list of transforms. -/
  | transforms
  /-- A conversion. -/
  | convert (r : Request)
deriving DecidableEq, Repr

/-- What the environment sets. -/
structure Environment where
  /-- The value of the variable for the folder of events, if it is set. -/
  telemetryDir : Option Text := none
deriving DecidableEq, Repr

/-- The folder for events that the environment names. -/
def Environment.telemetryDir? (env : Environment) : Option Text := env.telemetryDir.filter (· ≠ [])

/-- A letter as it counts in the name of a dialect: in small, and a long s as an s. -/
def foldLetter (c : Char) : Char := if c = 'ſ' then 's' else c.toLower

/-- The dialect of a name, in letters of any size. -/
def language? (name : Text) : Option Language :=
  Language.ofLabel? (String.ofList (name.map foldLetter))

/-- What the words of a command line give for a conversion. -/
structure Given where
  /-- The script. -/
  input : Text
  /-- Where the rewritten script is to go. -/
  output : Option Text := none
  /-- The source map of the script. -/
  sourceMap : Option Text := none
  /-- Where the adjusted source map is to go. -/
  mapOutput : Option Text := none
  /-- The name of the script's dialect. -/
  language : Option Text := none
  /-- Refuse a broken script. -/
  strict : Bool := false
  /-- The folder for events. -/
  telemetryDir : Option Text := none
deriving DecidableEq, Repr

/-- What the words of a command line say. -/
inductive Line where
  /-- They are misused. -/
  | misused
  /-- They ask for an explanation. -/
  | help
  /-- They ask for the list of transforms. -/
  | transforms
  /-- They ask for a conversion. -/
  | convert (g : Given)
deriving DecidableEq, Repr

/-- The conversion that is asked for, if its dialect is known and its files are there. -/
def request? (d : Disk) (env : Environment) (g : Given) : Option Request :=
  match g.language.map language? with
  | some none => none
  | language =>
    if d.isFile g.input && g.sourceMap.all d.isFile then
      some {
        input := g.input
        output := g.output
        sourceMap := g.sourceMap
        mapOutput := g.mapOutput
        language := language.join
        strict := g.strict
        telemetryDir := g.telemetryDir.or env.telemetryDir? }
    else none

/-- **What a command line asks for**; nothing if it is misused. -/
def invocation? (d : Disk) (env : Environment) : Line → Option Invocation
  | .misused => none
  | .help => some .help
  | .transforms => some .transforms
  | .convert g => (request? d env g).map .convert

end Sigil.Command
