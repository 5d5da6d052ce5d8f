import Sigil.Command.Request
import Sigil.Json.Double

/-!
# Command/Host — what a run meets besides the disk

A run reads a clock, takes some time, stands at some depth of calls, has its words read for it and
its reports shown.  None of this is the run's own, so all that is said of runs is said of them on
any host.
-/

namespace Sigil.Command

/-- **What a run meets besides the disk.** -/
structure Host where
  /-- What the words of a command line say. -/
  line : List Text → Line
  /-- What is shown of a text with style tags; nothing if its tags do not fit. -/
  shown? : Text → Option Text
  /-- How many lists and objects of a source map may hold one another. -/
  depth : Nat
  /-- How many milliseconds the conversion takes. -/
  elapsed : Double
  /-- What the clock shows as the events are recorded one by one. -/
  clock : Nat → Double

end Sigil.Command
