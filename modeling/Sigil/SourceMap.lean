import Sigil.Json.Display
import Sigil.SourceMap.Vlq

/-!
# SourceMap — which place of a script came from which place of its sources

A mapping ties a generated position to an original one; lines count from 1 and columns from 0, in
UTF-16 units.  Sources and names are usually strings, but a map may hold any documents there; `null`
stands for no source and no name.
-/

namespace Sigil

/-- One mapping.  An unmapped one has a generated position only. -/
structure Mapping where
  /-- Line in the generated script, counted from 1. -/
  generatedLine : Int
  /-- Column in the generated script. -/
  generatedColumn : Int
  /-- The source, or `null`. -/
  source : Json := .null
  /-- Line in the source, counted from 1. -/
  originalLine : Option Int := none
  /-- Column in the source. -/
  originalColumn : Option Int := none
  /-- The original name, or `null`. -/
  name : Json := .null
deriving Inhabited, Repr

namespace Mapping

/-- A mapping with a source and an original position. -/
def isMapped (m : Mapping) : Bool :=
  !m.source.isNull && m.originalLine.isSome && m.originalColumn.isSome

/-- Comes first by generated position. -/
def before (a b : Mapping) : Bool :=
  a.generatedLine < b.generatedLine ||
    (a.generatedLine = b.generatedLine && a.generatedColumn ≤ b.generatedColumn)

end Mapping

/-- A source map. -/
structure SourceMap where
  /-- The mappings. -/
  mappings : List Mapping := []
  /-- The sources. -/
  sources : List Json := []
  /-- The texts of the sources. -/
  sourcesContent : List Json := []
  /-- The original names. -/
  names : List Json := []
  /-- The generated file, or `null`. -/
  file : Json := .null
  /-- What stands in front of every source, or `null`. -/
  sourceRoot : Json := .null
  /-- The version of the format. -/
  version : Json := .int 3
deriving Inhabited, Repr

namespace SourceMap

/-- Why a document is not a source map. -/
inductive Flaw where
  /-- The version is not 3. -/
  | version (v : Json)
  /-- The map is an index of other maps. -/
  | sections
  /-- A segment cannot be decoded. -/
  | segment (f : Vlq.Flaw)
  /-- A segment does not have 1, 4 or 5 values. -/
  | arity (text : Text) (line : Nat)
  /-- A running source index leaves the table. -/
  | sourceRange (index : Int) (line : Nat)
  /-- A running name index leaves the table. -/
  | nameRange (index : Int) (line : Nat)
deriving Repr

/-- The numbers in the wording of a flaw can be shown. -/
def Flaw.isShort : Flaw → Bool
  | .version v => v.isShort
  | .sourceRange index _ | .nameRange index _ => Json.isShortInt index
  | .sections | .segment _ | .arity .. => true

/-- The wording of a flaw, if its numbers can be shown. -/
def Flaw.message : Flaw → String
  | .version v => "Unsupported source map version: " ++ v.display
  | .sections => "Indexed source maps are not supported"
  | .segment f => f.message
  | .arity text line =>
      "Invalid mapping segment " ++ Text.quoted text ++ " on line " ++ toString line
  | .sourceRange index line =>
      "Source index " ++ toString index ++ " out of range on line " ++ toString line
  | .nameRange index line =>
      "Name index " ++ toString index ++ " out of range on line " ++ toString line

/-- A value of the wrong type where a map needs another. -/
inductive Misuse where
  /-- The document is no object. -/
  | notAnObject
  /-- The mappings are no string. -/
  | mappingsNotText
  /-- A table is nothing that can be listed. -/
  | notAList
  /-- A list or an object stands as a source or a name. -/
  | collectionInTable
deriving DecidableEq, Repr

/-- Why a map cannot be read or written. -/
inductive Error where
  /-- The document has a flaw. -/
  | flaw (f : Flaw)
  /-- The document has a flaw in whose wording a number has too many digits to be shown. -/
  | overlong
  /-- A value has the wrong type. -/
  | misuse (m : Misuse)
deriving Repr

/-- **A flaw is reported** by its wording; if that cannot be put together, then only that it cannot.
-/
def Error.ofFlaw (f : Flaw) : Error := if f.isShort then .flaw f else .overlong

/-! ## Looking up -/

/-- A position in a source. -/
structure Original where
  /-- The source, or `null`. -/
  source : Json := .null
  /-- Line in the source, counted from 1. -/
  line : Option Int := none
  /-- Column in the source. -/
  column : Option Int := none
  /-- The original name, or `null`. -/
  name : Json := .null
deriving Inhabited, Repr

/-- **The original position of a generated one**: that of the closest mapping at or before the
column on the line; of several at one column, the last. -/
def originalPosition (m : SourceMap) (line column : Int) : Original :=
  let onLine := (m.mappings.filter (·.generatedLine = line)).mergeSort fun a b =>
    decide (a.generatedColumn ≤ b.generatedColumn)
  match (onLine.takeWhile (·.generatedColumn ≤ column)).getLast? with
  | none => {}
  | some p =>
    if p.isMapped then ⟨p.source, p.originalLine, p.originalColumn, p.name⟩ else {}

/-- The text of a source. -/
def contentOf (m : SourceMap) (source : Json) : Json :=
  match m.sources.findIdx? (·.same source) with
  | none => .null
  | some i => m.sourcesContent[i]?.getD .null

end SourceMap

end Sigil
