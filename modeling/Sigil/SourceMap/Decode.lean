import Sigil.SourceMap

/-!
# SourceMap/Decode — reading a source map from a document

The mappings are one string: lines end at semicolons, segments at commas.  A segment's values are
differences.  The generated column starts again on every line; source, original line, original
column and name run on through the whole string.
-/

namespace Sigil.SourceMap

/-- The values that run on through the whole string. -/
structure Running where
  /-- Index of the source. -/
  source : Int := 0
  /-- Original line, counted from 0. -/
  line : Int := 0
  /-- Original column. -/
  column : Int := 0
  /-- Index of the name. -/
  name : Int := 0
deriving DecidableEq, Repr, Inhabited

/-- The entry of a table at an index, if the table has it. -/
def entry? (table : List Json) (index : Int) : Option Json :=
  if index < 0 then none else table[index.toNat]?

/-- One mapping from the values of a segment. -/
def decodeSegment (sources names : List Json) (line : Nat) (segment : Text) (column : Int)
    (r : Running) : Except Flaw (Mapping × Running) :=
  match Vlq.decode segment with
  | .error f => .error (.segment f)
  | .ok [dc] => .ok ({ generatedLine := line, generatedColumn := column + dc }, r)
  | .ok [dc, ds, dl, dk] =>
    let r := { r with source := r.source + ds, line := r.line + dl, column := r.column + dk }
    match entry? sources r.source with
    | none => .error (.sourceRange r.source line)
    | some s => .ok (⟨line, column + dc, s, some (r.line + 1), some r.column, .null⟩, r)
  | .ok [dc, ds, dl, dk, dn] =>
    let r : Running := ⟨r.source + ds, r.line + dl, r.column + dk, r.name + dn⟩
    match entry? names r.name with
    | none => .error (.nameRange r.name line)
    | some n =>
      match entry? sources r.source with
      | none => .error (.sourceRange r.source line)
      | some s => .ok (⟨line, column + dc, s, some (r.line + 1), some r.column, n⟩, r)
  | .ok _ => .error (.arity segment line)

/-- The mappings of one line; empty segments are passed over. -/
def decodeSegments (sources names : List Json) (line : Nat) (column : Int) (r : Running) :
    List Text → Except Flaw (List Mapping × Running)
  | [] => .ok ([], r)
  | [] :: rest => decodeSegments sources names line column r rest
  | segment :: rest =>
    match decodeSegment sources names line segment column r with
    | .error f => .error f
    | .ok (m, r) =>
      match decodeSegments sources names line m.generatedColumn r rest with
      | .error f => .error f
      | .ok (ms, r) => .ok (m :: ms, r)

/-- The mappings of all lines from a given one on. -/
def decodeLines (sources names : List Json) (line : Nat) (r : Running) :
    List Text → Except Flaw (List Mapping)
  | [] => .ok []
  | text :: rest =>
    match decodeSegments sources names line 0 r (Text.splitOn ',' text) with
    | .error f => .error f
    | .ok (ms, r) =>
      match decodeLines sources names (line + 1) r rest with
      | .error f => .error f
      | .ok more => .ok (ms ++ more)

/-- The mappings that a string holds. -/
def decodeMappings (sources names : List Json) (mappings : Text) : Except Flaw (List Mapping) :=
  decodeLines sources names 1 {} (Text.splitOn ';' mappings)

/-- A table given as a document: a list as it is, a string by its characters, an object by its keys,
and what counts as false as nothing. -/
def tableOf : Json → Except Misuse (List Json)
  | .arr items => .ok items
  | .str s => .ok (s.toList.map fun c => .str (String.singleton c))
  | .obj entries => .ok (entries.map fun e => .str e.1)
  | v => if v.truthy then .error .notAList else .ok []

/-- A list cut or filled up with `null` to a length. -/
def fit (n : Nat) (items : List Json) : List Json :=
  items.take n ++ List.replicate (n - items.length) .null

/-- **Reads a source map.** -/
def ofJson (raw : Json) : Except Error SourceMap :=
  match raw with
  | .obj entries =>
    let value (key : String) : Json := (Json.get? entries key).getD .null
    let version := (Json.get? entries "version").getD (.int 3)
    if !version.same (.int 3) then .error (.ofFlaw (.version version))
    else if (Json.get? entries "sections").isSome then .error (.ofFlaw .sections)
    else
      match tableOf (value "sources"), tableOf (value "names"),
          tableOf (value "sourcesContent") with
      | .ok sources, .ok names, .ok content =>
        match (Json.get? entries "mappings").getD (.str "") with
        | .str mappings =>
          match decodeMappings sources names mappings.toList with
          | .error f => .error (.ofFlaw f)
          | .ok ms =>
            .ok {
              mappings := ms
              sources := sources
              sourcesContent := fit sources.length content
              names := names
              file := value "file"
              sourceRoot := value "sourceRoot"
              version := version }
        | _ => .error (.misuse .mappingsNotText)
      | .error e, _, _ => .error (.misuse e)
      | _, .error e, _ => .error (.misuse e)
      | _, _, .error e => .error (.misuse e)
  | _ => .error (.misuse .notAnObject)

end Sigil.SourceMap
