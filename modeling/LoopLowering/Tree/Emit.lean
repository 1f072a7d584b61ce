/-
The statements and expressions that lowering emits.

Each function builds one construct and gives all its new nodes the same span, so that
whoever asks for the construct decides what it points back to.
-/
import LoopLowering.Tree.Node

namespace LoopLowering

namespace Node

/-- The string literal `"value"`. -/
def stringLit (value : String) (span : Span) : Node := mk (.string value none) span []

/-- The undefined value, written `void 0`. -/
def undefined (span : Span) : Node := mk (.unary "void") span [mk (.number 0 none) span []]

/-- The receiver `this`. -/
def this (span : Span) : Node := mk .thisExpr span []

/-- A statement that evaluates an expression; it has the expression's range. -/
def exprStmt (expr : Node) : Node := mk .exprStmt expr.span [expr]

/-- The statement `var a = init, b;`, an absent initialiser for a name without one. -/
def varStmt (span : Span) (declarators : List (String × Node)) : Node :=
  varDecl .var false span <| declarators.map fun (name, init) =>
    declarator false span (binding name false span absent) init

/-- The assignment `target = value`. -/
def assignTo (target : String) (value : Node) (span : Span) : Node :=
  mk (.assign "=") span [binding target false span absent, value]

/-- Nothing, the expression itself, or a comma sequence of several. -/
def sequence? (span : Span) : List Node → Option Node
  | [] => none
  | [expr] => some expr
  | exprs => some (mk .sequence span exprs)

/-- The statement `return argument;`. -/
def returnStmt (argument : Node) (span : Span) : Node := mk .returnStmt span [argument]

/-- The statement `break;`. -/
def breakStmt (span : Span) : Node := mk (.breakStmt none) span []

/-- The statement `if (test) consequent`, with no `else`. -/
def ifStmt (test consequent : Node) (span : Span) : Node :=
  mk .ifStmt span [test, consequent, absent]

/-- The comparison `left === right`. -/
def strictEq (left right : Node) (span : Span) : Node := mk (.binary "===") span [left, right]

/-- The access `object.property`. -/
def memberOf (object : Node) (property : String) (span : Span) : Node :=
  mk .member span [object, mk (.propName property) span []]

/-- The property `key: value` of an object literal, its key at `span`. -/
def keyValue (key : String) (value : Node) (span : Span) : Node :=
  mk .keyValue .generated [mk (.propName key) span [], value]

/-- An object literal with one property. -/
def objectOf (key : String) (value : Node) (span : Span) : Node :=
  mk .object span [keyValue key value span]

/-- The call `callee(args)`. -/
def callOf (callee : String) (args : List String) (span : Span) : Node :=
  mk .call span
    [use callee span, list (args.map fun arg => mk (.arg none) .generated [use arg span])]

/-- An anonymous function with plain parameters. -/
def functionOf (params : List String) (stmts : List Node) (span : Span) : Node :=
  mk (.functionExpr none) .generated
    [mk (.function false false) span
      [list (params.map fun name => mk .parameter span [list [], binding name false span absent]),
       list [], block span stmts, absent]]

end Node

end LoopLowering
