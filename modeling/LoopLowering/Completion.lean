/-
How one run of a loop body ends, and how its function says so.

A body that became a function can no longer jump out of the loop.  It returns instead:
nothing when the loop should go on, the break sentinel when it should end, and an
object that holds the value when the function around the loop should return.
`JumpSites.dispatch` is the statement of the loop that calls the function and acts on
what it returned.
-/
import LoopLowering.Options.Basic
import LoopLowering.Tree.Emit

namespace LoopLowering

/-- How one run of a loop body ends. -/
inductive Completion where
  /-- It reached its end, or continued. -/
  | normal
  /-- It left the loop. -/
  | leave
  /-- It returned from the function around the loop, with a value if there is one. -/
  | result (value? : Option Node)

/-- The statement that says so from inside the function the body became. -/
def Completion.toReturn (options : Options) (span : Span) : Completion → Node
  | .normal => .returnStmt .absent span
  | .leave => .returnStmt (.stringLit options.breakSentinel span) span
  | .result value? =>
    .returnStmt (.objectOf options.returnKey (value?.getD (.undefined span)) span) span

/-- The three ways to jump out of an iteration. -/
inductive JumpKind where
  | leave
  | next
  | result
deriving DecidableEq, Repr

/-- A jump that had to become a return. -/
structure JumpSite where
  kind : JumpKind
  span : Span
deriving DecidableEq, Repr

/-- The jumps of a loop body that had to become returns, in source order. -/
abbrev JumpSites := List JumpSite

namespace JumpSites

/-- Some jump leaves the loop. -/
def leaves (sites : JumpSites) : Bool := sites.any (·.kind == .leave)

/-- Some jump returns from the function around the loop. -/
def returns (sites : JumpSites) : Bool := sites.any (·.kind == .result)

/-- The loop has to look at what the function returned. -/
def needDispatch (sites : JumpSites) : Bool := sites.leaves || sites.returns

/-- The statement that runs one iteration.  A returned object is not the sentinel but
would pass for any true value, so the sentinel is looked for first. -/
def dispatch (sites : JumpSites) (call : Node) (resultName : String) (options : Options) : Node :=
  if !sites.needDispatch then .exprStmt call
  else
    let result := Node.use resultName .generated
    let onLeave := Node.ifStmt
      (.strictEq result (.stringLit options.breakSentinel .generated) .generated)
      (.breakStmt .generated) .generated
    let onReturn := Node.ifStmt result
      (.returnStmt (.memberOf result options.returnKey .generated) .generated) .generated
    .block .generated <|
      [.varStmt .generated [(resultName, call)]] ++
      (if sites.leaves then [onLeave] else []) ++
      (if sites.returns then [onReturn] else [])

end JumpSites

end LoopLowering
