/-
Why a loop cannot be lowered.
-/
import LoopLowering.Capture

namespace LoopLowering

/-- The reasons for which a loop is refused, with the range to point at. -/
inductive Refusal where
  /-- The head declares by a pattern. -/
  | destructuringHead (span : Span)
  /-- A jump in the body goes to a label outside the loop. -/
  | outerLabel (label : String) (span : Span)
  /-- The body suspends the function around the loop. -/
  | suspendInBody (keyword : Capture.Keyword) (span : Span)
  /-- The body refers to the function around the loop. -/
  | functionBound (keyword : Capture.Keyword) (span : Span)
  /-- A closure refers to a binding of a nested loop that is not lowered by itself. -/
  | innerLoopCapture (span : Span)
  /-- The body declares function-scoped variables by a pattern. -/
  | destructuringVar (span : Span)
  /-- The request does not fit the tree. -/
  | internal (message : String) (span : Span)
deriving DecidableEq, Repr

namespace Refusal

/-- The refusal in words. -/
def message : Refusal → String
  | destructuringHead _ =>
    "destructuring patterns in a block-scoped loop head are not supported"
  | outerLabel label _ =>
    "`" ++ label ++ "` targets a statement outside the loop; " ++
      "labeled jumps out of a per-iteration scope are not supported"
  | suspendInBody keyword _ =>
    "`" ++ keyword.text ++ "` cannot move into the function that gives each iteration " ++
      "its own scope"
  | functionBound keyword _ =>
    "`" ++ keyword.text ++ "` refers to the enclosing function and cannot move into the " ++
      "function that gives each iteration its own scope"
  | innerLoopCapture _ =>
    "a closure captures a `let`/`const` declared in an inner `while`, `do-while` or `var` " ++
      "loop; per-iteration bindings of that loop are not supported"
  | destructuringVar _ =>
    "destructuring `var` declarations inside a loop body that needs its own scope are " ++
      "not supported"
  | internal message _ => "internal error: " ++ message

/-- The range to point at. -/
def span : Refusal → Span
  | destructuringHead span => span
  | outerLabel _ span => span
  | suspendInBody _ span => span
  | functionBound _ span => span
  | innerLoopCapture span => span
  | destructuringVar span => span
  | internal _ span => span

end Refusal

end LoopLowering
