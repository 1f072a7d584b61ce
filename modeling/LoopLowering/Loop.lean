/-
Block-scoped loops.

A block-scoped loop is a `for`, `for`-`in` or `for`-`of` statement, under any number
of labels, whose head is a `let` or `const` declaration.  `Loop.ofNode?` takes such a
statement apart and `Loop.toNode` puts it together again.
-/
import LoopLowering.Capture

namespace LoopLowering

/-- A `var`, `let` or `const` declaration. -/
structure Declaration where
  kind : VarKind
  declare : Bool
  span : Span
  declarators : List Node

namespace Declaration

/-- The declaration as a node. -/
def toNode (decl : Declaration) : Node :=
  .varDecl decl.kind decl.declare decl.span decl.declarators

/-- The names it declares, in source order. -/
def names (decl : Declaration) : List String := bindingNamesOf decl.declarators

end Declaration

/-- What follows the declaration in the head of a loop.  The expressions of a plain
head may be absent. -/
inductive LoopHead where
  /-- The rest `; test; update` of a plain loop. -/
  | plain (test update : Node)
  /-- The rest `in right` of a loop over keys. -/
  | keys (right : Node)
  /-- The rest `of right` of a loop over values, or of a `for await`. -/
  | values (isAwait : Bool) (right : Node)

namespace LoopHead

/-- The expressions of the head. -/
def exprs : LoopHead → List Node
  | plain test update => [test, update]
  | keys right => [right]
  | values _ right => [right]

/-- Change the expressions of the head. -/
def map (f : Node → Node) : LoopHead → LoopHead
  | plain test update => plain (f test) (f update)
  | keys right => keys (f right)
  | values isAwait right => values isAwait (f right)

/-- Whether the loop steps a counter of its own, so that it has to see what the body
assigns to it.  The other loops assign their variable anew in each iteration. -/
def isPlain : LoopHead → Bool
  | plain _ _ => true
  | _ => false

end LoopHead

/-- A loop taken apart. -/
structure Loop where
  /-- The labels of the loop, outermost first. -/
  labels : List Name
  span : Span
  decl : Declaration
  head : LoopHead
  body : Node

namespace Loop

/-- Take a block-scoped loop apart. -/
def ofNode? : Node → Option Loop
  | .mk (.labeled label) _ [body] =>
    (ofNode? body).map fun loop => { loop with labels := label :: loop.labels }
  | .mk .forStmt span [.mk (.varDecl (.lexical c) declare) declSpan ds, test, update, body] =>
    some ⟨[], span, ⟨.lexical c, declare, declSpan, ds⟩, .plain test update, body⟩
  | .mk .forInStmt span [.mk (.varDecl (.lexical c) declare) declSpan ds, right, body] =>
    some ⟨[], span, ⟨.lexical c, declare, declSpan, ds⟩, .keys right, body⟩
  | .mk (.forOfStmt isAwait) span [.mk (.varDecl (.lexical c) declare) declSpan ds, right, body] =>
    some ⟨[], span, ⟨.lexical c, declare, declSpan, ds⟩, .values isAwait right, body⟩
  | _ => none

/-- The loop without its labels. -/
def toUnlabeled (loop : Loop) : Node :=
  match loop.head with
  | .plain test update => .forStmt loop.span loop.decl.toNode test update loop.body
  | .keys right => .forInStmt loop.span loop.decl.toNode right loop.body
  | .values isAwait right => .forOfStmt isAwait loop.span loop.decl.toNode right loop.body

/-- Put a loop together, labels included; these get the range of the loop. -/
def toNode (loop : Loop) : Node :=
  loop.labels.foldr (fun label stmt => .labeled label loop.span stmt) loop.toUnlabeled

/-- The names of the labels, outermost first. -/
def labelNames (loop : Loop) : List String := loop.labels.map (·.text)

/-- The findings of the head, then those of the body. -/
def findings (loop : Loop) : List Capture.Finding :=
  let head : Capture.Context :=
    { frames := [⟨.block, loop.decl.names, .loopVariable⟩]
      inBody := false, inNestedLoop := false, inInnerLoop := false }
  Capture.findings head loop.decl.toNode ++ Capture.findingsIn head loop.head.exprs ++
    Capture.findings { head with inBody := true } loop.body

/-- What the loop does with the bindings of one iteration. -/
def capture (loop : Loop) : Capture.Record := .ofFindings loop.findings

end Loop

/-- A loop put together and taken apart again is the loop it was, provided its head was
block-scoped. -/
theorem Loop.ofNode?_toNode (loop : Loop) (h : loop.decl.kind.isBlockScoped) :
    Loop.ofNode? loop.toNode = some loop := by
  obtain ⟨labels, span, ⟨kind, declare, declSpan, ds⟩, head, body⟩ := loop
  cases kind with
  | var => simp [VarKind.isBlockScoped] at h
  | lexical constant =>
      clear h
      induction labels with
      | nil => cases head <;> rfl
      | cons label labels ih =>
          simp only [Loop.toNode, Loop.toUnlabeled, List.foldr_cons] at ih ⊢
          rw [Loop.ofNode?, ih]
          rfl

/-- Whether a statement is a block-scoped loop. -/
def Node.isCandidate (stmt : Node) : Bool := (Loop.ofNode? stmt).isSome

/-- Whether a statement of this form repeats a body. -/
def Form.isLoop : Form → Bool
  | .forStmt | .forInStmt | .forOfStmt _ | .whileStmt | .doWhileStmt => true
  | _ => false

end LoopLowering
