import Sigil.Command
import Sigil.Command.Shell
import Sigil.Script

/-!
# Main — the program

The program looks at the places that its command line names, runs the command line on a disk that
holds just these places, and writes what has changed.
-/

namespace Sigil.Main

open Sigil.Command

/-- The places on the way from a place along the parts of a path, ends included. -/
def way (l : Location) (parts : List Text) : List Location := parts.scanl Disk.step l

/-- The paths that a run may look at. -/
def mentioned (env : Environment) (words : List Text) : List Text :=
  match Line.ofWords words with
  | .convert g =>
    let given := g.input :: [g.output, g.sourceMap, g.mapOutput, g.telemetryDir,
      env.telemetryDir?].flatMap Option.toList
    given ++ given.filterMap (Path.extend? · Request.mapEnding) ++
      given.map (Path.inside · Request.telemetryFile)
  | _ => []

/-- The absolute path of a place. -/
def address (l : Location) : String := String.ofList ('/' :: Path.join l.reverse)

/-- What is at a place; only a folder can be opened by a path that goes on with a point. -/
def look (l : Location) : IO (Option Entry) := do
  try
    let _ ← IO.FS.Handle.mk (address l ++ "/.") .read
    return some .folder
  catch _ =>
    try
      return some (.file (← IO.FS.readBinFile (address l)))
    catch _ => return none

/-- A disk that holds what is at some places. -/
def snapshot (here : Location) (places : List Location) : IO Disk := do
  let mut disk : Disk := { entries := [], here := here }
  for l in places.eraseDups do
    if let some e ← look l then disk := disk.put l e
  return disk

/-- Writes what has changed. -/
def writeBack (before after : Disk) : IO Unit := do
  for (l, e) in after.entries do
    unless (before.get? l).any e.same do
      match e with
      | .folder => IO.FS.createDirAll (address l)
      | .file content => IO.FS.writeBinFile (address l) content

/-- The variable of the environment that names the folder for events. -/
def telemetryVariable : String := "HASHMANGLE_TELEMETRY_DIR"

/-- How many lists and objects of a source map may hold one another. -/
def depth : Nat := 1000

/-- The clock's reading, in seconds. -/
def reading : IO Double := return .ofDecimal false (← IO.monoMsNow) (-3)

/-- How many milliseconds it takes to run a command line. -/
def duration (before : Disk) (env : Environment) (words : List Text) : IO Double := do
  let start ← IO.monoMsNow
  let host := Host.shell depth (.ofDecimal false 0 0) fun _ => .ofDecimal false 0 0
  let _ ← IO.lazyPure fun _ => (run Script.parse host before env words).ending.status
  return .ofDecimal false ((← IO.monoMsNow) - start) 0

/-- How the program is used. -/
def usage : String := "usage: sigil convert INPUT [--output PATH] [--source-map PATH]
         [--map-output PATH] [--language javascript|typescript|tsx]
         [--strict | --no-strict] [--telemetry-dir PATH]
       sigil transforms

convert     rewrites the private names of a script, and keeps its source map in step
transforms  lists the registered transforms"

/-- Shows how a run ends. -/
def report : Ending → IO Unit
  | .done rows => rows.forM fun row => IO.println (String.ofList (List.intercalate [' ', ' '] row))
  | .explained => IO.println usage
  | .refused message => IO.println (String.ofList message)
  | .brokenOff (.obstacle .missing) => IO.eprintln "No such file or directory"
  | .brokenOff (.obstacle .notFolder) => IO.eprintln "Not a directory"
  | .brokenOff (.obstacle .folder) => IO.eprintln "Is a directory"
  | .brokenOff (.obstacle .taken) => IO.eprintln "File exists"
  | .brokenOff .undecodable => IO.eprintln "A file is not UTF-8 text"
  | .brokenOff .nameless => IO.eprintln "The output has no name"
  | .brokenOff (.misfit m) => IO.eprintln m.message
  | .brokenOff (.beyond _) => IO.eprintln "The source map cannot be held"
  | .brokenOff _ => IO.eprintln "The run broke off"
  | .misused => IO.eprintln usage

end Sigil.Main

open Sigil Sigil.Command in
/-- **The program.** -/
def main (args : List String) : IO UInt32 := do
  let words := args.map String.toList
  let env : Environment := ⟨(← IO.getEnv Main.telemetryVariable).map String.toList⟩
  let here := (Path.parts (← IO.currentDir).toString.toList).reverse
  let places := (Main.mentioned env words).flatMap fun path =>
    Main.way (if Path.isAbsolute path then [] else here) (Path.parts path)
  let before ← Main.snapshot here ([] :: here :: places)
  let elapsed ← Main.duration before env words
  let now ← Main.reading
  let outcome := run Script.parse (.shell Main.depth elapsed fun _ => now) before env words
  Main.writeBack before outcome.disk
  for notice in outcome.notices do
    if notice.level ≠ "DEBUG" then IO.eprintln (notice.level ++ " " ++ notice.text elapsed)
  Main.report outcome.ending
  return UInt32.ofNat outcome.ending.status
