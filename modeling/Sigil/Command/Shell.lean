import Sigil.Command.Arguments
import Sigil.Command.Host
import Sigil.Console

/-!
# Command/Shell — the host of a program that is started from a shell
-/

namespace Sigil.Command

/-- The host that reads words as options and plain arguments and shows text without its style
tags. -/
def Host.shell (depth : Nat) (elapsed : Double) (clock : Nat → Double) : Host where
  line := Line.ofWords
  shown? := Console.shown?
  depth := depth
  elapsed := elapsed
  clock := clock

end Sigil.Command
