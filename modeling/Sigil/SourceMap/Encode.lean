import Sigil.SourceMap

/-!
# SourceMap/Encode — writing a source map as a document

Mappings are written in the order of their generated positions.  Sources and names that the tables
lack are put at their ends; of equal entries in a table the last one counts.
-/

namespace Sigil.SourceMap

/-- The index of the last entry of a table that is the same as a value. -/
def lastIndex? (table : List Json) (v : Json) : Option Nat :=
  match table.reverse.findIdx? (·.same v) with
  | none => none
  | some i => some (table.length - 1 - i)

/-- A table with those values at its end that it lacks; `null` is never one of them. -/
def extend (table : List Json) : List Json → List Json
  | [] => table
  | v :: vs =>
    if v.isNull || table.any (·.same v) then extend table vs else extend (table ++ [v]) vs

/-- What the next segment is written relative to. -/
structure Written where
  /-- The generated line. -/
  generatedLine : Int := 1
  /-- The generated column. -/
  generatedColumn : Int := 0
  /-- Index of the source. -/
  source : Int := 0
  /-- Original line, counted from 0. -/
  line : Int := 0
  /-- Original column. -/
  column : Int := 0
  /-- Index of the name. -/
  name : Int := 0
deriving DecidableEq, Repr, Inhabited

/-- The index under which a table holds a value. -/
def indexIn (table : List Json) (v : Json) : Int := ((lastIndex? table v).getD 0 : Nat)

/-- The values of a segment and what comes to be written relative to. -/
def segmentValues (sources names : List Json) (w : Written) (m : Mapping) : List Int × Written :=
  let dc := m.generatedColumn - w.generatedColumn
  let w := { w with generatedColumn := m.generatedColumn }
  match m.originalLine, m.originalColumn with
  | some line, some column =>
    if m.source.isNull then ([dc], w)
    else
      let source := indexIn sources m.source
      let values := [dc, source - w.source, line - 1 - w.line, column - w.column]
      let w := { w with source := source, line := line - 1, column := column }
      if m.name.isNull then (values, w)
      else
        let name := indexIn names m.name
        (values ++ [name - w.name], { w with name := name })
  | _, _ => ([dc], w)

/-- Writes mappings from a given state on; `fresh` says that the line has no segment yet. -/
def encodeFrom (sources names : List Json) (w : Written) (fresh : Bool) : List Mapping → Text
  | [] => []
  | m :: rest =>
    let skipped := (m.generatedLine - w.generatedLine).toNat
    let w := if skipped = 0 then w
      else { w with generatedLine := m.generatedLine, generatedColumn := 0 }
    let separator := if skipped = 0 then (if fresh then [] else [',']) else
      List.replicate skipped ';'
    let (values, w) := segmentValues sources names w m
    separator ++ Vlq.encode values ++ encodeFrom sources names w false rest

/-- The mappings as one string, by tables that hold all sources and names. -/
def encodeMappings (sources names : List Json) (ms : List Mapping) : Text :=
  encodeFrom sources names {} true (ms.mergeSort Mapping.before)

/-- **Writes a source map.**  A list or an object cannot stand in a table, for it has no index. -/
def toJson (m : SourceMap) : Except Misuse Json :=
  let sources := extend m.sources (m.mappings.map (·.source))
  let names := extend m.names (m.mappings.map (·.name))
  if sources.any (·.isCollection) || names.any (·.isCollection) then .error .collectionInTable
  else
    let content := m.sourcesContent ++
      List.replicate (m.sources.length - m.sourcesContent.length) .null ++
      List.replicate (sources.length - m.sources.length) .null
    let optional (key : String) (v : Json) : List (String × Json) :=
      if v.isNull then [] else [(key, v)]
    .ok (.obj (
      ("version", m.version) :: optional "file" m.file ++ optional "sourceRoot" m.sourceRoot ++
      [("sources", .arr sources), ("names", .arr names),
        ("mappings", .str (String.ofList (encodeMappings sources names m.mappings)))] ++
      if content.all (·.isNull) then [] else [("sourcesContent", .arr content)]))

end Sigil.SourceMap
