/-
Taking the `var` declarations out of a loop body.

A variable a body declares with `var` belongs to the function around the loop.  When
the body becomes a function, its names are declared in front of it, and what is left
of each declaration is the assignment of its initialisers.
-/
import LoopLowering.Scope
import LoopLowering.Tree.Emit

namespace LoopLowering

/-- The assignment that remains of a declarator with an initialiser. -/
def Node.initAssignment? : Node → Option Node
  | .mk (.declarator _) span [.mk (.ident .bind name _) _ _, init] =>
    if init.isAbsent then none else some (.assignTo name init span)
  | _ => none

/-- The assignments that remain of a declaration, as one expression. -/
def initAssignments? (span : Span) (declarators : List Node) : Option Node :=
  Node.sequence? span (declarators.filterMap Node.initAssignment?)

/-- What remains of the first part of a plain loop head. -/
def Node.hoistInit : Node → Node
  | .mk (.varDecl .var _) span declarators => (initAssignments? span declarators).getD .absent
  | node => node

/-- What remains of the left side of a loop over keys or values: its pattern. -/
def Node.hoistLeft : Node → Node
  | .mk (.varDecl .var _) _ [.mk (.declarator _) _ [pattern, _]] => pattern
  | node => node

/-- What remains of a `var` statement. -/
def hoistVar (span : Span) (declarators : List Node) : Node :=
  match initAssignments? span declarators with
  | some expr => .exprStmt expr
  | none => .mk .empty span []

/-- Whether the parts of the node are a list of statements in which one that does
nothing can be left out. -/
def Form.holdsStmts : Form → Bool
  | .block | .caseBody => true
  | _ => false

/-- Leave out the statements that do nothing. -/
def withoutEmpty (stmts : List Node) : List Node :=
  stmts.filter (·.form != .empty)

mutual

/-- Replace the `var` declarations in a statement by assignments.  An exported `var`
stays a declaration, and closures keep theirs. -/
def Node.hoist : Node → Node
  | .mk form span parts =>
    if form.isClosure then .mk form span parts
    else match form, parts with
      | .varDecl .var _, declarators => hoistVar span declarators
      | .exportDecl, [.mk (.varDecl .var declare) declSpan declarators] =>
        .mk .exportDecl span [.varDecl .var declare declSpan declarators]
      | .forStmt, [init, test, update, body] =>
        .mk .forStmt span [init.hoistInit, test, update, body.hoist]
      | .forInStmt, [left, right, body] =>
        .mk .forInStmt span [left.hoistLeft, right, body.hoist]
      | .forOfStmt isAwait, [left, right, body] =>
        .mk (.forOfStmt isAwait) span [left.hoistLeft, right, body.hoist]
      | form, parts =>
        .mk form span (if form.holdsStmts then withoutEmpty (hoistIn parts) else hoistIn parts)

/-- Replace the `var` declarations in a list of statements by assignments. -/
def hoistIn : List Node → List Node
  | [] => []
  | node :: nodes => node.hoist :: hoistIn nodes

end

theorem hoistIn_eq_map (nodes : List Node) : hoistIn nodes = nodes.map Node.hoist := by
  induction nodes with
  | nil => rfl
  | cons node nodes ih => rw [hoistIn, ih, List.map_cons]

/-- Take the `var` declarations out of a statement list. -/
def hoistStmts (stmts : List Node) : List Node := withoutEmpty (hoistIn stmts)

end LoopLowering
