/-
The jumps of a loop body that is about to become a function.

A `break` or `continue` without a label goes to the nearest loop around it, a `break`
also to the nearest `switch`; with a label it goes where the label stands.  Those that
go to the loop whose body this is, and every `return`, have to become returns of the
new function.  A jump to a label further out cannot be expressed at all.

`Node.jumps` lists the jumps that matter and `Node.redirect` replaces them.  Both read
the same context and stop at closures.  `redirectJumps` does both for a whole body.
-/
import LoopLowering.Completion
import LoopLowering.Loop
import LoopLowering.Refusal

namespace LoopLowering

/-- Where a jump goes, seen from the loop body. -/
inductive JumpTarget where
  /-- To the loop itself. -/
  | loop
  /-- To something inside the body. -/
  | inner
  /-- To a label outside the loop. -/
  | outer (label : String)
deriving DecidableEq, Repr

/-- What lies between the loop body and the node at hand. -/
structure JumpContext where
  /-- The labels of the loop itself. -/
  own : List String
  /-- The labels inside the body, innermost first. -/
  inner : List String
  /-- There is a nested loop. -/
  inLoop : Bool
  /-- There is a `switch`. -/
  inSwitch : Bool

namespace JumpContext

/-- The context at the top of the body of a loop with the given labels. -/
def top (own : List String) : JumpContext := ⟨own, [], false, false⟩

/-- The context of the parts of a node. -/
def enter (ctx : JumpContext) (form : Form) : JumpContext :=
  match form with
  | .labeled label => { ctx with inner := label.text :: ctx.inner }
  | .switchStmt => { ctx with inSwitch := true }
  | _ => if form.isLoop then { ctx with inLoop := true } else ctx

/-- Where a jump goes, given whether something inside the body stops it when it has
no label. -/
def target (ctx : JumpContext) (label : Option Name) (stopped : Bool) : JumpTarget :=
  match label with
  | none => if stopped then .inner else .loop
  | some label =>
    if label.text ∈ ctx.inner then .inner
    else if label.text ∈ ctx.own then .loop
    else .outer label.text

/-- Where a `break` goes. -/
def breakTarget (ctx : JumpContext) (label : Option Name) : JumpTarget :=
  ctx.target label (ctx.inLoop || ctx.inSwitch)

/-- Where a `continue` goes. -/
def continueTarget (ctx : JumpContext) (label : Option Name) : JumpTarget :=
  ctx.target label ctx.inLoop

end JumpContext

/-! ### Listing the jumps -/

/-- A jump out of the body. -/
inductive Jump where
  /-- It can become a return. -/
  | site (site : JumpSite)
  /-- It goes to a label outside the loop. -/
  | stray (label : String)
deriving DecidableEq, Repr

/-- A jump to a target, if it leaves the body. -/
def JumpTarget.jump? (kind : JumpKind) (span : Span) : JumpTarget → List Jump
  | .loop => [.site ⟨kind, span⟩]
  | .inner => []
  | .outer label => [.stray label]

mutual

/-- The jumps out of the body in one of its nodes, in source order. -/
def Node.jumps (ctx : JumpContext) : Node → List Jump
  | .mk form span parts =>
    if form.isClosure then []
    else match form with
      | .breakStmt label => (ctx.breakTarget label).jump? .leave span
      | .continueStmt label => (ctx.continueTarget label).jump? .next span
      | .returnStmt => [.site ⟨.result, span⟩]
      | _ => jumpsIn (ctx.enter form) parts

/-- The jumps out of the body in a list of its nodes, in source order. -/
def jumpsIn (ctx : JumpContext) : List Node → List Jump
  | [] => []
  | node :: nodes => node.jumps ctx ++ jumpsIn ctx nodes

end

theorem jumpsIn_eq_flatMap (ctx : JumpContext) (nodes : List Node) :
    jumpsIn ctx nodes = nodes.flatMap (Node.jumps ctx) := by
  induction nodes with
  | nil => rfl
  | cons node nodes ih => rw [jumpsIn, ih, List.flatMap_cons]

/-- The jumps that can become returns. -/
def jumpSites (jumps : List Jump) : JumpSites :=
  jumps.filterMap fun
    | .site site => some site
    | .stray _ => none

/-- The label of the first jump that cannot. -/
def firstStray? (jumps : List Jump) : Option String :=
  jumps.findSome? fun
    | .site _ => none
    | .stray label => some label

/-! ### Replacing the jumps -/

/-- How the jumps of a body are replaced. -/
structure Redirection where
  /-- What a `continue` has to do before it returns. -/
  writeBack : List Node
  options : Options

/-- The statement that takes the place of a `continue`. -/
def Redirection.continueStmt (redirection : Redirection) (span : Span) : Node :=
  let stmt := Completion.normal.toReturn redirection.options span
  if redirection.writeBack.isEmpty then stmt
  else .block .generated (redirection.writeBack ++ [stmt])

mutual

/-- Replace the jumps to the loop, and the returns, in one node of its body. -/
def Node.redirect (redirection : Redirection) (ctx : JumpContext) : Node → Node
  | .mk form span parts =>
    if form.isClosure then .mk form span parts
    else match form with
      | .breakStmt label =>
        if ctx.breakTarget label = .loop then Completion.leave.toReturn redirection.options span
        else .mk form span parts
      | .continueStmt label =>
        if ctx.continueTarget label = .loop then redirection.continueStmt span
        else .mk form span parts
      | .returnStmt =>
        (Completion.result (parts.find? (!·.isAbsent))).toReturn redirection.options span
      | _ => .mk form span (redirectIn redirection (ctx.enter form) parts)

/-- Replace the jumps to the loop, and the returns, in a list of nodes of its body. -/
def redirectIn (redirection : Redirection) (ctx : JumpContext) : List Node → List Node
  | [] => []
  | node :: nodes => node.redirect redirection ctx :: redirectIn redirection ctx nodes

end

theorem redirectIn_eq_map (redirection : Redirection) (ctx : JumpContext) (nodes : List Node) :
    redirectIn redirection ctx nodes = nodes.map (Node.redirect redirection ctx) := by
  induction nodes with
  | nil => rfl
  | cons node nodes ih => rw [redirectIn, ih, List.map_cons]

/-! ### A whole body -/

/-- Replace the jumps to a loop, and the returns, in the statements of its body, and list
them.  The loop is refused for the first jump to a label outside it. -/
def redirectJumps (redirection : Redirection) (labels : List String) (loopSpan : Span)
    (stmts : List Node) : List Node × Except Refusal JumpSites :=
  let ctx := JumpContext.top labels
  let jumps := jumpsIn ctx stmts
  (redirectIn redirection ctx stmts,
    match firstStray? jumps with
    | some label => .error (.outerLabel label loopSpan)
    | none => .ok (jumpSites jumps))

end LoopLowering
