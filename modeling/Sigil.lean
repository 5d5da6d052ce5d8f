import Sigil.Main
import Sigil.Command.Shell
import Sigil.Tree.Labelled
import Sigil.Cst
import Sigil.Proofs.Edit.Pieces
import Sigil.Proofs.Edit.InOrder
import Sigil.Proofs.Shift.ByLine
import Sigil.Proofs.Text.Columns
import Sigil.Proofs.Shift.InStep
import Sigil.Proofs.ShortName.Words
import Sigil.Proofs.Walk.Binding
import Sigil.Proofs.SourceMap.Stream
import Sigil.Proofs.SourceMap.Tables
import Sigil.Proofs.SourceMap.Vlq
import Sigil.Proofs.SourceMap.RoundTrip
import Sigil.Proofs.Walk.Spans
import Sigil.Proofs.Shift.Monotone
import Sigil.Proofs.Walk.Confined
import Sigil.Proofs.SourceMap.Lookup
import Sigil.Proofs.Text.Bytes
import Sigil.Proofs.Cst.Bytes
import Sigil.Proofs.Walk.Respelling
import Sigil.Proofs.Walk.SecondWalk
import Sigil.Proofs.Edit.Offsets
import Sigil.Proofs.Convert.Signs
import Sigil.Proofs.Edit.Undo
import Sigil.Proofs.Shift.Undo
import Sigil.Proofs.SourceMap.Undo
import Sigil.Proofs.SourceMap.Complete
import Sigil.Proofs.SourceMap.Normal
import Sigil.Proofs.SourceMap.Document
import Sigil.Proofs.Command.Plan
import Sigil.Proofs.Disk.Places
import Sigil.Proofs.Convert.LineEnds
import Sigil.Proofs.Command.Output
import Sigil.Proofs.Convert.Counters
import Sigil.Proofs.Json.OneLine
import Sigil.Proofs.Json.Scalars
import Sigil.Proofs.Json.Pairs
import Sigil.Proofs.Json.RoundTrip
import Sigil.Proofs.Telemetry.Documents
import Sigil.Proofs.Telemetry.History
import Sigil.Proofs.Command.InStep
import Sigil.Proofs.Command.Outputs
import Sigil.Proofs.Edit.OneByOne
import Sigil.Proofs.Shift.ClosedForm
import Sigil.Proofs.SourceMap.Order
import Sigil.Proofs.SourceMap.Snapped
import Sigil.Proofs.Shift.Counted
import Sigil.Proofs.SourceMap.Spellings
import Sigil.Proofs.ShortName.Order
import Sigil.Proofs.SourceMap.Closest
import Sigil.Proofs.SourceMap.Segments
import Sigil.Proofs.SourceMap.Refused
import Sigil.Proofs.SourceMap.Accepted
import Sigil.Proofs.Scope.History
import Sigil.Proofs.Cst.Faults
import Sigil.Proofs.Text.Lines
import Sigil.Proofs.Text.WholeLines
