/-!
# Settings

What can be set about a machine.
-/

namespace Mudscript

structure Settings where
  maxFrames : Nat := 256
  stackCapacity : Nat := 256
  objectRoot : String := "."
  objectExtension : String := "c"
  traceExecution : Bool := false
  deriving DecidableEq

end Mudscript
