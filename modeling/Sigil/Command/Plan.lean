import Sigil.Command.Host
import Sigil.Console
import Sigil.Json.Reader
import Sigil.Json.Writer
import Sigil.SourceMap.Adjust
import Sigil.Telemetry
import Sigil.Text.Utf8
import Sigil.Transform

/-!
# Command/Plan — what a conversion writes, settled before it writes anything

`Request.plan` only reads: it converts the script and adjusts the source map, and hands over the
texts that are to be written.  `Plan.carryOut` then writes the script, after it the map, and last
the events; if one of these cannot be written, the later ones are not, and the earlier ones stay.
-/

namespace Sigil.Command

/-- Why a source map could not be adjusted. -/
inductive MapFault where
  /-- The file is no document. -/
  | malformed (e : Json.Malformed)
  /-- The document is no map that can be adjusted. -/
  | unfit (f : SourceMap.Flaw)
deriving Repr

/-- The wording of a fault of a source map. -/
def MapFault.message : MapFault → String
  | .malformed e => e.message
  | .unfit f => f.message

/-- Why a command came to a bad end. -/
inductive Failure where
  /-- The script is broken. -/
  | broken (b : Broken)
  /-- The source map at a path could not be adjusted. -/
  | map (path : Text) (e : MapFault)
  /-- The tree's spans do not fit the script. -/
  | misfit (m : Edit.Misfit)
  /-- The map has a value of the wrong type. -/
  | misuse (m : SourceMap.Misuse)
  /-- The map is a document that cannot be held. -/
  | beyond (l : Json.Limit)
  /-- The map has a flaw in whose wording a number has too many digits to be shown. -/
  | overlong
  /-- A file is no text. -/
  | undecodable
  /-- A path cannot be used. -/
  | obstacle (o : Obstacle)
  /-- The output has no name, so that no map can be beside it. -/
  | nameless
  /-- A report closes a style tag that is not open. -/
  | tag
deriving Repr

/-- The wording of a failure that the user can mend in the script or in the map. -/
def Failure.message? : Failure → Option Text
  | .broken b => some ("Parse failed: " ++ b.message).toList
  | .map path e =>
    some ("Source map adjustment failed for ".toList ++ path ++ (": " ++ e.message).toList)
  | _ => none

/-- A failure to convert a script. -/
def Failure.ofConvert : ConvertError → Failure
  | .broken b => .broken b
  | .misfit m => .misfit m

/-- A failure to adjust the source map at a path. -/
def Failure.ofMap (path : Text) : SourceMap.Error → Failure
  | .flaw f => .map path (.unfit f)
  | .overlong => .overlong
  | .misuse m => .misuse m

/-- The text of a file, its line ends made alike. -/
def readText (d : Disk) (path : Text) : Except Failure Text :=
  match d.read path with
  | .error o => .error (.obstacle o)
  | .ok bytes =>
    match Text.decode? bytes with
    | none => .error .undecodable
    | some t => .ok (Text.evenLines t)

/-- The source map at a path, adjusted. -/
def adjustedMap (depth : Nat) (d : Disk) (path code : Text) (edits : List Edit) :
    List Notice × Except Failure Json :=
  match readText d path with
  | .error f => ([], .error f)
  | .ok t =>
    match Json.read depth t with
    | .error (.malformed e) => ([], .error (.map (Path.clean path) (.malformed e)))
    | .error (.beyond l) => ([], .error (.beyond l))
    | .ok raw =>
      match SourceMap.adjustJson raw code edits with
      | (notices, .error e) => (notices, .error (.ofMap (Path.clean path) e))
      | (notices, .ok map) => (notices, .ok map)

/-- What a conversion is going to write. -/
structure Plan where
  /-- What was asked for. -/
  request : Request
  /-- The conversion of the script. -/
  conversion : Conversion
  /-- Where the source map goes, and the adjusted map. -/
  map : Option (Text × Json)

/-- The plan, once the script is converted. -/
def Request.planMap (host : Host) (r : Request) (d : Disk) (code : Text) (c : Conversion) :
    List Notice × Except Failure Plan :=
  match r.mapSource? d with
  | none => ([], .ok ⟨r, c, none⟩)
  | some source =>
    match r.mapTarget? source with
    | none => ([], .error .nameless)
    | some target =>
      match adjustedMap host.depth d source code c.edits with
      | (notices, .error f) => (notices, .error f)
      | (notices, .ok map) => (notices, .ok ⟨r, c, some (target, map)⟩)

/-- **Settles what a conversion writes.** -/
def Request.plan {τ : Type} [Tree τ] (parse : Parser τ) (host : Host) (r : Request) (d : Disk) :
    List Notice × Except Failure Plan :=
  match readText d r.input with
  | .error f => ([], .error f)
  | .ok code =>
    match convert parse code r.options with
    | (notices, .error e) => (notices, .error (.ofConvert e))
    | (notices, .ok c) =>
      let (more, result) := r.planMap host d code c
      (notices ++ more, result)

namespace Plan

/-- Writes the script. -/
def writeScript (p : Plan) (d : Disk) : Except Obstacle Disk :=
  d.write p.request.target (Text.encode p.conversion.code)

/-- Writes the source map, if there is one. -/
def writeMap (p : Plan) (d : Disk) : Except Obstacle Disk :=
  match p.map with
  | none => .ok d
  | some (target, map) => d.write target (Text.encode map.write.toList)

/-- The events of the conversion. -/
def events (host : Host) (p : Plan) : List Telemetry.Event :=
  Telemetry.conversionEvents host.clock (.str p.request.filename) (.int p.conversion.classCount)
    (.int p.conversion.fieldCount) (.int p.conversion.editCount) (.double host.elapsed)

/-- Puts the events to the end of their file, if there is a folder for it. -/
def writeEvents (host : Host) (p : Plan) (d : Disk) : Except Obstacle Disk :=
  match p.request.telemetryDir with
  | none => .ok d
  | some folder =>
    match d.makeFolder folder with
    | .error o => .error o
    | .ok d => d.append (Path.inside folder Request.telemetryFile)
        (Text.encode ((p.events host).flatMap Telemetry.line))

/-- What is reported once script and map are written. -/
def notices (p : Plan) : List Notice := [.converted (Transform.description p.request.filename)]

/-- **Writes what was settled**: the disk afterwards, what is reported, and what went wrong. -/
def carryOut (host : Host) (p : Plan) (d : Disk) : Disk × List Notice × Option Obstacle :=
  match p.writeScript d with
  | .error o => (d, [], some o)
  | .ok d₁ =>
    match p.writeMap d₁ with
    | .error o => (d₁, [], some o)
    | .ok d₂ =>
      match p.writeEvents host d₂ with
      | .error o => (d₂, p.notices, some o)
      | .ok d₃ => (d₃, p.notices, none)

/-- The summary of a conversion, row by row, with style tags in it. -/
def summary (host : Host) (p : Plan) : List (List Text) :=
  if p.conversion.editCount = 0 then
    [["CONVERT".toList],
      ["No private members rewritten in ".toList ++
        Console.styled "cyan" (Path.clean p.request.input)]]
  else
    [["Private-to-Property Result".toList],
      ["Metric".toList, "Value".toList],
      ["Input".toList, Path.clean p.request.input],
      ["Output".toList, Path.clean p.request.target],
      ["Source Map".toList, (p.map.map fun m => Path.clean m.1).getD ['-']],
      ["Classes".toList, (toString p.conversion.classCount).toList],
      ["Fields".toList, (toString p.conversion.fieldCount).toList],
      ["Edits".toList, (toString p.conversion.editCount).toList],
      ["Elapsed".toList, (host.elapsed.tenths ++ "ms").toList]]

end Plan

end Sigil.Command
