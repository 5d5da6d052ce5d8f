import Sigil.Command.Plan

/-!
# Command — running a command line on a disk

A run ends well, or is refused with an explanation, or breaks off, or does not start because the
command line is misused.  Nothing is written unless the whole conversion is settled.  Whatever is
neither in the program nor on the disk is the host's.
-/

namespace Sigil.Command

/-- How a run ends. -/
inductive Ending where
  /-- It ends well, and this is shown, row by row. -/
  | done (rows : List (List Text))
  /-- It explains how it is used. -/
  | explained
  /-- It is refused with an explanation. -/
  | refused (message : Text)
  /-- It breaks off. -/
  | brokenOff (f : Failure)
  /-- It is misused. -/
  | misused
deriving Repr

/-- The exit status of a run. -/
def Ending.status : Ending → Nat
  | .done _ | .explained => 0
  | .refused _ | .brokenOff _ => 1
  | .misused => 2

/-- A run: the disk afterwards, how it ends and what is reported. -/
structure Run where
  /-- The disk afterwards. -/
  disk : Disk
  /-- How the run ends. -/
  ending : Ending
  /-- What is reported, in order. -/
  notices : List Notice := []

/-- A good end, if the rows can be shown. -/
def Ending.ofRows (host : Host) (rows : List (List Text)) : Ending :=
  match rows.mapM fun row => row.mapM host.shown? with
  | some shown => .done shown
  | none => .brokenOff .tag

/-- The end after a failure. -/
def Ending.ofFailure (host : Host) (f : Failure) : Ending :=
  match f.message? with
  | none => .brokenOff f
  | some message =>
    match host.shown? (Console.styled "bold red" message) with
    | some shown => .refused shown
    | none => .brokenOff .tag

/-- The list of the transforms. -/
def transformRows : List (List Text) :=
  ["Registered Transforms".toList] :: ["Transform".toList] ::
    Transform.Registry.initial.keys.map fun key => [key.display.toList]

/-- Runs a conversion. -/
def Request.run {τ : Type} [Tree τ] (parse : Parser τ) (host : Host) (r : Request) (d : Disk) :
    Run :=
  match r.plan parse host d with
  | (notices, .error f) => ⟨d, .ofFailure host f, notices⟩
  | (notices, .ok plan) =>
    match plan.carryOut host d with
    | (after, more, some o) => ⟨after, .brokenOff (.obstacle o), notices ++ more⟩
    | (after, more, none) => ⟨after, .ofRows host (plan.summary host), notices ++ more⟩

/-- **Runs a command line** on a disk. -/
def run {τ : Type} [Tree τ] (parse : Parser τ) (host : Host) (d : Disk) (env : Environment)
    (words : List Text) : Run :=
  match invocation? d env (host.line words) with
  | none => { disk := d, ending := .misused }
  | some .help => { disk := d, ending := .explained }
  | some .transforms => { disk := d, ending := .ofRows host transformRows }
  | some (.convert r) => r.run parse host d

end Sigil.Command
