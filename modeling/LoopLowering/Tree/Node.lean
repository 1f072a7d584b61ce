/-
Program trees.

A node is a form, a span and its parts.  The short names below stand for the nodes
the rest of the library takes apart or builds; they can be used on both sides of a
match.
-/
import LoopLowering.Tree.Form

namespace LoopLowering

/-- A node of a program tree. -/
inductive Node where
  | mk (form : Form) (span : Span) (parts : List Node)

namespace Node

/-- What the node is. -/
def form : Node → Form
  | mk form _ _ => form

/-- The parts of the node, in source order. -/
def parts : Node → List Node
  | mk _ _ parts => parts

/-- The span written on the node itself. -/
def ownSpan : Node → Span
  | mk _ span _ => span

/-- The source range of a statement or expression.  Declarations and expressions that
hold a function or a class have the range of that function or class. -/
def span : Node → Span
  | mk (.functionDecl _) _ [_, function] => function.ownSpan
  | mk (.functionExpr _) _ [function] => function.ownSpan
  | mk (.classDecl _) _ [_, body] => body.ownSpan
  | mk .classExpr _ [_, body] => body.ownSpan
  | mk _ span _ => span

/-- The missing optional part. -/
def absent : Node := mk .absent .generated []

instance : Inhabited Node := ⟨absent⟩

/-- Whether an optional part is missing. -/
def isAbsent (node : Node) : Bool := node.form == .absent

/-- A list of parts standing as one part. -/
def list (items : List Node) : Node := mk .list .generated items

/-- The block `{ stmts }`. -/
@[match_pattern] abbrev block (span : Span) (stmts : List Node) : Node := mk .block span stmts

/-- The labelled statement `label: body`. -/
@[match_pattern] abbrev labeled (label : Name) (span : Span) (body : Node) : Node :=
  mk (.labeled label) span [body]

/-- The plain loop `for (init; test; update) body`. -/
@[match_pattern] abbrev forStmt (span : Span) (init test update body : Node) : Node :=
  mk .forStmt span [init, test, update, body]

/-- The loop over keys `for (left in right) body`. -/
@[match_pattern] abbrev forInStmt (span : Span) (left right body : Node) : Node :=
  mk .forInStmt span [left, right, body]

/-- The loop over values `for (left of right) body`, or `for await`. -/
@[match_pattern] abbrev forOfStmt (isAwait : Bool) (span : Span) (left right body : Node) : Node :=
  mk (.forOfStmt isAwait) span [left, right, body]

/-- A `var`, `let` or `const` with its declarators. -/
@[match_pattern] abbrev varDecl (kind : VarKind) (declare : Bool) (span : Span)
    (declarators : List Node) : Node :=
  mk (.varDecl kind declare) span declarators

/-- One `pattern = init` of a declaration. -/
@[match_pattern] abbrev declarator (definite : Bool) (span : Span) (pattern init : Node) : Node :=
  mk (.declarator definite) span [pattern, init]

/-- A name in an expression. -/
@[match_pattern] abbrev use (name : String) (span : Span) : Node :=
  mk (.ident .use name false) span []

/-- A name in a pattern, with its type ascription. -/
@[match_pattern] abbrev binding (name : String) (optional : Bool) (span : Span)
    (ascription : Node) : Node :=
  mk (.ident .bind name optional) span [ascription]

end Node

end LoopLowering
