import Sigil.Json.Double

/-!
# Notice — what is reported besides the result

Each notice has a level and a wording.
-/

namespace Sigil

/-- A place in a script: a line counted from 1 and a column counted from 0. -/
structure Place where
  /-- Line, counted from 1. -/
  line : Int
  /-- Column, counted from 0. -/
  column : Int
deriving DecidableEq, Repr, Inhabited

/-- Something worth reporting. -/
inductive Notice where
  /-- A script was rewritten. -/
  | rewritten (filename : String) (classes fields edits : Nat)
  /-- A broken script was read as far as it goes. -/
  | recovered (filename : String) (place : Place)
  /-- Segments without an original position were left out of a map. -/
  | dropped (count : Nat)
  /-- A line of an event file is no event. -/
  | skipped (file : String)
  /-- A file was converted. -/
  | converted (description : String)
deriving DecidableEq, Repr

/-- How much a notice matters. -/
def Notice.level : Notice → String
  | .rewritten .. | .dropped .. => "DEBUG"
  | .recovered .. | .skipped .. => "WARNING"
  | .converted .. => "INFO"

/-- The wording of a notice, where rewriting a script takes so many milliseconds. -/
def Notice.text (elapsed : Double) : Notice → String
  | .rewritten filename classes fields edits =>
      "[PrivateToProperty] " ++ filename ++ ": " ++ toString classes ++ " classes, " ++
        toString fields ++ " fields, " ++ toString edits ++ " edits in " ++ elapsed.tenths ++ "ms"
  | .recovered filename place =>
      "[Parser] " ++ filename ++ ":" ++ toString place.line ++ ":" ++ toString place.column ++
        ": syntax error, continuing with recovered tree; " ++
        "private names inside the error are left unchanged"
  | .dropped count => "[SourceMap] Dropped " ++ toString count ++ " unmapped segments"
  | .skipped file => "[Telemetry] Skipping undecodable line in " ++ file
  | .converted description => "[CLI] " ++ description

end Sigil
