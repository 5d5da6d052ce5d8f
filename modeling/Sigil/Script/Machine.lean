import Sigil.Script.Form
import Std.Data.HashSet

/-!
# Script/Machine — reading a script by a grammar

The machine reads a form off a text.  Its goals are a list of what is still to be read; where the
grammar offers a choice it keeps the other way as an alternative, and it falls back to the latest
alternative when a token is not there.  Reading a form may shut the alternatives that were opened on
the way, which makes a choice final.  A rule that could not be read ahead at some offset is
remembered there and not tried again.  One step does one thing, so the machine is a loop: no nesting
of the script is too deep for it.
-/

namespace Sigil.Script

/-- A node that is still being read. -/
structure Unfinished where
  /-- The node's kind. -/
  kind : Kind
  /-- Offset of its first character. -/
  start : Nat
  /-- How many children are read. -/
  count : Nat := 0
  /-- The children, last first. -/
  children : List (Node Kind) := []
  /-- The nodes in fields. -/
  fields : List (Field × Node Kind) := []

/-- The finished node, which ends at an offset. -/
def Unfinished.finish (u : Unfinished) (stop : Nat) : Node Kind :=
  .mk u.kind u.start stop [] u.children.reverse u.fields.reverse

/-- Adds a child. -/
def Unfinished.push (u : Unfinished) (n : Node Kind) : Unfinished :=
  { u with count := u.count + 1, children := n :: u.children }

/-- What has been read so far. -/
structure Progress where
  /-- The place reached. -/
  cursor : Cursor
  /-- Offset behind the last token. -/
  stop : Nat
  /-- The innermost node that is being read. -/
  current : Unfinished
  /-- The nodes around it, innermost first. -/
  outer : List Unfinished

/-- One thing left to do. -/
inductive Goal where
  /-- Read a form. -/
  | read (f : Form)
  /-- Keep only the oldest `kept` alternatives. -/
  | shut (kept : Nat)
  /-- Keep only the oldest `kept` alternatives and go back to an earlier place. -/
  | rewind (kept : Nat) (p : Progress)
  /-- Remember that a rule cannot be read at an offset. -/
  | refute (r : Rule) (offset : Nat)
  /-- Read a form again and again, if reading it once has moved on from an offset. -/
  | again (f : Form) (since : Nat)
  /-- Finish the innermost node. -/
  | close
  /-- Put the last child into a field, if there are more than `count` children. -/
  | settle (slot : Field) (count : Nat)

/-- Another way to read on. -/
structure Alternative where
  /-- What had been read. -/
  progress : Progress
  /-- What would be left to do. -/
  goals : List Goal

/-- The machine between two steps. -/
structure Machine where
  /-- What has been read. -/
  progress : Progress
  /-- What is left to do. -/
  goals : List Goal
  /-- The other ways, latest first. -/
  alternatives : List Alternative
  /-- How many other ways there are. -/
  width : Nat
  /-- The farthest offset at which a token was asked for. -/
  farthest : Nat
  /-- Rules that could not be read ahead, and where. -/
  refuted : Std.HashSet (Rule × Nat) := {}

/-- How a reading ends. -/
inductive Outcome where
  /-- Everything was read. -/
  | done (root : Node Kind)
  /-- No way led to the end; the farthest one stopped at an offset. -/
  | stuck (offset : Nat)

namespace Machine

/-- Falls back to the latest alternative. -/
def retreat (m : Machine) : Except Outcome Machine :=
  match m.alternatives with
  | [] => .error (.stuck m.farthest)
  | a :: rest =>
    .ok { m with
      progress := a.progress, goals := a.goals, alternatives := rest, width := m.width - 1 }

/-- Keeps only the oldest `kept` alternatives. -/
def shut (m : Machine) (kept : Nat) : Machine :=
  { m with alternatives := m.alternatives.drop (m.width - kept), width := min m.width kept }

/-- Opens an alternative at the present place. -/
def orElse (m : Machine) (goals : List Goal) : Machine :=
  { m with alternatives := ⟨m.progress, goals⟩ :: m.alternatives, width := m.width + 1 }

/-- Passes over a token. -/
def advance (p : Progress) (t : Token) (found : Match) : Progress :=
  let c := p.cursor
  let start := if found.overGap then c.next else c.offset
  let text := if found.overGap then c.ahead else c.rest
  if !found.overGap && found.length = 0 then p
  else
    let stop := start + found.length
    let p := { p with cursor := .atOffset stop (text.drop found.length), stop := stop }
    match t with
    | .privateName =>
      let leaf : Node Kind := .mk .privateName start stop (text.take found.length) [] []
      { p with current := p.current.push leaf }
    | _ => p

/-- Does the first thing that is left to do. -/
def step (allowed : Feature → Bool) (grammar : Rule → Form) (m : Machine) :
    Except Outcome Machine :=
  match m.goals with
  | [] => .error (.done (m.progress.current.finish m.progress.stop))
  | .read f :: goals =>
    match f with
    | .token t =>
      match t.scan m.progress.cursor with
      | some found => .ok { m with progress := advance m.progress t found, goals := goals }
      | none => { m with farthest := max m.farthest m.progress.cursor.next }.retreat
    | .seq parts => .ok { m with goals := parts.map .read ++ goals }
    | .first [] => m.retreat
    | .first [f] => .ok { m with goals := .read f :: goals }
    | .first (f :: g :: rest) =>
      .ok { m.orElse (.read (.first (g :: rest)) :: goals) with
        goals := .read f :: .shut m.width :: goals }
    | .either a b =>
      .ok { m.orElse (.read b :: goals) with goals := .read a :: goals }
    | .many f =>
      .ok { m.orElse goals with
        goals := .read f :: .shut m.width :: .again f m.progress.cursor.offset :: goals }
    | .ifAhead test yes no =>
      let offset := m.progress.cursor.offset
      let (known, otherwise) : Bool × List Goal := match test with
        | .rule r => (m.refuted.contains (r, offset), .refute r offset :: .read no :: goals)
        | _ => (false, .read no :: goals)
      if known then .ok { m with goals := .read no :: goals }
      else
        .ok { m.orElse otherwise with
          goals := .read test :: .rewind m.width m.progress :: .read yes :: goals }
    | .rule r => .ok { m with goals := .read (grammar r) :: goals }
    | .node kind f =>
      let p := m.progress
      .ok { m with
        progress := { p with
          current := { kind := kind, start := p.cursor.next }, outer := p.current :: p.outer }
        goals := .read f :: .close :: goals }
    | .field slot f =>
      .ok { m with goals := .read f :: .settle slot m.progress.current.count :: goals }
    | .ifAllowed feature yes no =>
      .ok { m with goals := .read (if allowed feature then yes else no) :: goals }
  | .shut kept :: goals => .ok { m.shut kept with goals := goals }
  | .rewind kept p :: goals => .ok { m.shut kept with progress := p, goals := goals }
  | .refute r offset :: goals =>
    .ok { m with refuted := m.refuted.insert (r, offset), goals := goals }
  | .again f since :: goals =>
    if m.progress.cursor.offset = since then .ok { m with goals := goals }
    else .ok { m with goals := .read (.many f) :: goals }
  | .close :: goals =>
    let p := m.progress
    match p.outer with
    | [] => .ok { m with goals := goals }
    | u :: outer =>
      .ok { m with
        progress := { p with current := u.push (p.current.finish p.stop), outer := outer }
        goals := goals }
  | .settle slot count :: goals =>
    let p := m.progress
    match p.current.children with
    | n :: _ =>
      if count < p.current.count then
        .ok { m with
          progress := { p with
            current := { p.current with fields := (slot, n) :: p.current.fields } }
          goals := goals }
      else .ok { m with goals := goals }
    | [] => .ok { m with goals := goals }

/-- Takes up to `fuel` steps. -/
def run (allowed : Feature → Bool) (grammar : Rule → Form) : Nat → Machine → Outcome
  | 0, m => .stuck m.farthest
  | fuel + 1, m =>
    match step allowed grammar m with
    | .error outcome => outcome
    | .ok m => run allowed grammar fuel m

/-- The machine in front of a text. -/
def start (text : Text) (f : Form) : Machine where
  progress := ⟨.atOffset 0 text, 0, { kind := .other, start := 0 }, []⟩
  goals := [.read f]
  alternatives := []
  width := 0
  farthest := 0

end Machine

end Sigil.Script
