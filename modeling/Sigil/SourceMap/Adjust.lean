import Sigil.Notice
import Sigil.Shift
import Sigil.SourceMap.Decode
import Sigil.SourceMap.Encode

/-!
# SourceMap/Adjust — keeping a source map in step with an edited script

Edits replace single tokens, so they move columns and never lines.  Unmapped segments are left out
of an adjusted map.  Without edits a map stays as it is.
-/

namespace Sigil.SourceMap

/-- A mapping with its column moved by the edits of its line. -/
def adjustMapping (shifts : List (Int × List Shift)) (m : Mapping) : Mapping :=
  { m with
    generatedColumn :=
      Shift.adjust m.generatedColumn ((shifts.lookup (m.generatedLine - 1)).getD []) }

/-- **The map of the edited script.** -/
def adjust (m : SourceMap) (code : Text) (edits : List Edit) : SourceMap :=
  if edits.isEmpty then m
  else
    let shifts := Shift.byLine code edits
    { m with mappings := (m.mappings.filter (·.isMapped)).map (adjustMapping shifts) }

/-- What is reported of an adjustment. -/
def adjustNotices (m : SourceMap) (edits : List Edit) : List Notice :=
  let dropped := (m.mappings.filter (!·.isMapped)).length
  if edits.isEmpty || dropped = 0 then [] else [.dropped dropped]

/-- **The map of the edited script, as a document.** -/
def adjustJson (raw : Json) (code : Text) (edits : List Edit) :
    List Notice × Except Error Json :=
  if edits.isEmpty then ([], .ok raw)
  else
    match ofJson raw with
    | .error e => ([], .error e)
    | .ok m =>
      (m.adjustNotices edits,
        match (m.adjust code edits).toJson with
        | .error e => .error (.misuse e)
        | .ok out => .ok out)

end Sigil.SourceMap
