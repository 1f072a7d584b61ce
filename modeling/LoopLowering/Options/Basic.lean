/-
The names and marks that lowering puts into a program.
-/

namespace LoopLowering

/-- The names and marks used when a loop body becomes a function.  The two names are
only asked for: where one is in use, it gets a suffix. -/
structure Options where
  /-- The function a loop body becomes. -/
  functionName : String := "loop"
  /-- The variable that holds what the function returned. -/
  resultName : String := "returned"
  /-- What the function returns to leave the loop. -/
  breakSentinel : String := "break"
  /-- The property in which a returned value travels. -/
  returnKey : String := "v"
deriving DecidableEq, Inhabited, Repr

end LoopLowering
