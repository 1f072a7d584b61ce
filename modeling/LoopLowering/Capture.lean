/-
What a loop does with the bindings of one iteration.

The analysis walks the head and the body of a loop.  Its context is a stack of scopes,
innermost first, each with the names it binds and what kind of boundary it is; every
node contributes findings of its own, and its parts are read in the context the node
opens.  A record sums the findings up: whether a closure can reach a binding that has
to be fresh in each iteration, whether `this` or `arguments` would change meaning if
the body became a function, which loop variables the body assigns, and so on.
-/
import LoopLowering.Scope

namespace LoopLowering

mutual

/-- The names an assignment to a pattern writes, in source order.  Unlike a
declaration, an assignment can name its target as an expression in parentheses. -/
def Node.assignedNames : Node → List String
  | .mk (.ident .bind name _) _ _ => [name]
  | .mk (.ident .use name _) _ _ => [name]
  | .mk .paren _ [inner] => inner.assignedNames
  | .mk .list _ items => assignedNamesOf items
  | .mk (.arrayPat _) _ [elements, _] => elements.assignedNames
  | .mk (.objectPat _) _ [properties, _] => properties.assignedNames
  | .mk (.rest _) _ [pattern, _] => pattern.assignedNames
  | .mk .assignPat _ [pattern, _] => pattern.assignedNames
  | .mk .keyValuePat _ [_, pattern] => pattern.assignedNames
  | .mk .assignPatProp _ [pattern, _] => pattern.assignedNames
  | _ => []

/-- The names an assignment to a list of patterns writes. -/
def assignedNamesOf : List Node → List String
  | [] => []
  | node :: nodes => node.assignedNames ++ assignedNamesOf nodes

end

theorem assignedNamesOf_eq_flatMap (nodes : List Node) :
    assignedNamesOf nodes = nodes.flatMap Node.assignedNames := by
  induction nodes with
  | nil => rfl
  | cons node nodes ih => rw [assignedNamesOf, ih, List.flatMap_cons]

namespace Capture

/-! ### Scopes around a node -/

/-- Where the bindings of a scope come from, as far as iterations are concerned. -/
inductive Origin where
  /-- The head of the loop. -/
  | loopVariable
  /-- A block of the body, not inside a nested loop. -/
  | iteration
  /-- A block of the body inside a nested loop that has no binding of its own. -/
  | innerLoop
  /-- Anything that is not this loop's to renew: nested block-scoped loops, closures,
  catch clauses, the loop head's own expressions. -/
  | untracked
deriving DecidableEq, Repr

/-- What a scope is a boundary of. -/
inductive Boundary where
  | block
  | arrow
  | function
deriving DecidableEq, Repr

/-- A scope around the node at hand. -/
structure Frame where
  boundary : Boundary
  names : List String
  origin : Origin

/-- Where in a loop the node at hand is. -/
structure Context where
  /-- The scopes around it, innermost first. -/
  frames : List Frame
  /-- It is in the body of the loop and not in its head. -/
  inBody : Bool
  /-- It is in a nested block-scoped loop. -/
  inNestedLoop : Bool
  /-- It is in a nested loop of another kind. -/
  inInnerLoop : Bool

namespace Context

/-- The context has a closure between the loop and the node. -/
def inClosure (ctx : Context) : Bool :=
  ctx.frames.any (·.boundary != .block)

/-- The context has a function with its own `this` between the loop and the node. -/
def inFunction (ctx : Context) : Bool :=
  ctx.frames.any (·.boundary == .function)

/-- The node runs as part of the loop body itself, with the loop's own `this`. -/
def inOwnBody (ctx : Context) : Bool :=
  ctx.inBody && !ctx.inFunction

/-- Whose bindings a block at this place declares. -/
def blockOrigin (ctx : Context) : Origin :=
  if !ctx.inBody || ctx.inNestedLoop || ctx.inClosure then .untracked
  else if ctx.inInnerLoop then .innerLoop
  else .iteration

/-- Open one more scope. -/
def push (ctx : Context) (frame : Frame) : Context :=
  { ctx with frames := frame :: ctx.frames }

/-- The scope that binds a name, as its origin and whether a closure lies in between.
Every function with its own `this` also binds `arguments`. -/
def resolveFrom (name : String) : (crossed : Bool) → List Frame → Option (Origin × Bool)
  | _, [] => none
  | crossed, frame :: frames =>
    if name ∈ frame.names then some (frame.origin, crossed)
    else if name = "arguments" ∧ frame.boundary = .function then some (.untracked, false)
    else resolveFrom name (crossed || frame.boundary != .block) frames

/-- The scope a name refers to at this place. -/
def resolve (ctx : Context) (name : String) : Option (Origin × Bool) :=
  resolveFrom name false ctx.frames

/-- The context inside a loop over the keys or values of something: a nested
block-scoped loop if its head binds a name. -/
def enterOver (ctx : Context) (head : Node) : Context :=
  match head.blockScopedNames with
  | [] => { ctx with inInnerLoop := true }
  | names => { ctx with inNestedLoop := true }.push ⟨.block, names, .untracked⟩

/-- The context of the parts of a node: the scope it opens, and the loop it is. -/
def enter (ctx : Context) : Node → Context
  | .mk .block span stmts =>
    ctx.push ⟨.block, (Node.mk .block span stmts).scopeNames, ctx.blockOrigin⟩
  | .mk .forStmt _ (.mk (.varDecl (.lexical _) _) _ declarators :: _) =>
    { ctx with inNestedLoop := true }.push ⟨.block, bindingNamesOf declarators, .untracked⟩
  | .mk .forStmt _ _ => { ctx with inInnerLoop := true }
  | .mk .forInStmt _ (head :: _) => ctx.enterOver head
  | .mk (.forOfStmt _) _ (head :: _) => ctx.enterOver head
  | .mk .whileStmt _ _ => { ctx with inInnerLoop := true }
  | .mk .doWhileStmt _ _ => { ctx with inInnerLoop := true }
  | .mk .catchClause span parts =>
    ctx.push ⟨.block, (Node.mk .catchClause span parts).scopeNames, .untracked⟩
  | .mk (.functionExpr name) span parts =>
    ctx.push ⟨.block, (Node.mk (.functionExpr name) span parts).scopeNames, .untracked⟩
  | .mk (.arrow async generator) span parts =>
    ctx.push ⟨.arrow, (Node.mk (.arrow async generator) span parts).scopeNames, .untracked⟩
  | .mk form span parts =>
    if form.isClosure then
      ctx.push ⟨.function, (Node.mk form span parts).scopeNames, .untracked⟩
    else ctx

end Context

/-! ### Findings -/

/-- A construct that belongs to the function around it. -/
inductive Keyword where
  | yield
  | await
  | super
  | newTarget
deriving DecidableEq, Repr

/-- How the construct is written. -/
def Keyword.text : Keyword → String
  | .yield => "yield"
  | .await => "await"
  | .super => "super"
  | .newTarget => "new.target"

/-- Something about a loop that a single node shows. -/
inductive Finding where
  /-- A closure refers to a binding of this origin. -/
  | captured (origin : Origin)
  /-- A name refers to something outside the loop. -/
  | free (name : String)
  /-- The body uses the `this` of the function around the loop. -/
  | usesThis
  /-- The body uses the `arguments` of the function around the loop. -/
  | usesArguments
  /-- The body assigns a loop variable. -/
  | reassigned (name : String)
  /-- A block of the body declares a name anew in each iteration. -/
  | declared (name : String)
  /-- The body declares a function-scoped variable. -/
  | bodyVar (name : String)
  /-- The body declares function-scoped variables by a pattern. -/
  | destructuringVar (span : Span)
  /-- The body suspends the function around the loop. -/
  | suspends (keyword : Keyword) (span : Span)
  /-- The body refers to the function around the loop. -/
  | functionBound (keyword : Keyword) (span : Span)
deriving DecidableEq, Repr

namespace Context

/-- What a reference to a name shows. -/
def reference (ctx : Context) (name : String) : List Finding :=
  match ctx.resolve name with
  | some (origin, true) => if ctx.inBody then [.captured origin] else []
  | some (_, false) => []
  | none =>
    (if name = "arguments" ∧ ctx.inOwnBody then [.usesArguments] else []) ++ [.free name]

/-- What an assignment to a name shows. -/
def write (ctx : Context) (name : String) : List Finding :=
  if !ctx.inBody then []
  else match ctx.resolve name with
    | some (.loopVariable, _) => [.reassigned name]
    | _ => []

/-- What assignments to several names show. -/
def writes (ctx : Context) (names : List String) : List Finding :=
  names.flatMap ctx.write

/-- What a block shows by the names it declares. -/
def declarations (ctx : Context) (names : List String) : List Finding :=
  match ctx.blockOrigin with
  | .iteration | .innerLoop => (names.foldl addName []).map .declared
  | _ => []

/-- What a construct that suspends the running function shows. -/
def suspension (ctx : Context) (keyword : Keyword) (span : Span) : List Finding :=
  if ctx.inBody && !ctx.inClosure then [.suspends keyword span] else []

/-- What a construct that belongs to the running function shows. -/
def functionBound (ctx : Context) (keyword : Keyword) (span : Span) : List Finding :=
  if ctx.inOwnBody then [.functionBound keyword span] else []

/-- What one declarator of a `var` declaration shows. -/
def varDeclarator (declSpan : Span) : Node → Finding
  | .mk (.declarator _) _ (.mk (.ident .bind name _) _ _ :: _) => .bodyVar name
  | _ => .destructuringVar declSpan

/-- What a node shows by itself, its parts left out. -/
def own (ctx : Context) : Node → List Finding
  | .mk (.ident _ name _) _ _ => ctx.reference name
  | .mk .thisExpr _ _ => if ctx.inOwnBody then [.usesThis] else []
  | .mk (.assign _) _ (target :: _) => ctx.writes target.assignedNames
  | .mk (.update _ _) _ (target :: _) => ctx.writes target.assignedNames
  | .mk (.varDecl .var _) span declarators =>
    if ctx.inBody && !ctx.inClosure then declarators.map (varDeclarator span) else []
  | .mk .block _ stmts => ctx.declarations (lexicalNamesOf stmts)
  | .mk .forInStmt _ (head :: _) => ctx.writes head.assignedNames
  | .mk (.forOfStmt isAwait) span (head :: _) =>
    (if isAwait then ctx.suspension .await span else []) ++ ctx.writes head.assignedNames
  | .mk (.yieldExpr _) span _ => ctx.suspension .yield span
  | .mk .awaitExpr span _ => ctx.suspension .await span
  | .mk .superRef span _ => ctx.functionBound .super span
  | .mk (.metaProperty .newTarget) span _ => ctx.functionBound .newTarget span
  | _ => []

end Context

mutual

/-- The findings of a tree, in source order. -/
def findings (ctx : Context) : Node → List Finding
  | .mk form span parts =>
    ctx.own (.mk form span parts) ++ findingsIn (ctx.enter (.mk form span parts)) parts

/-- The findings of a list of trees, in source order. -/
def findingsIn (ctx : Context) : List Node → List Finding
  | [] => []
  | node :: nodes => findings ctx node ++ findingsIn ctx nodes

end

theorem findingsIn_eq_flatMap (ctx : Context) (nodes : List Node) :
    findingsIn ctx nodes = nodes.flatMap (findings ctx) := by
  induction nodes with
  | nil => rfl
  | cons node nodes ih => rw [findingsIn, ih, List.flatMap_cons]

/-! ### The record of a loop -/

/-- What a loop does with the bindings of one iteration. -/
structure Record where
  /-- A closure of the body refers to a loop variable. -/
  variableCaptured : Bool
  /-- A closure refers to a binding declared in a block of the body. -/
  bodyBindingCaptured : Bool
  /-- A closure refers to a binding declared in a block of a nested loop that has no
  binding of its own. -/
  innerLoopBindingCaptured : Bool
  /-- The body uses the `this` of the function around the loop. -/
  thisCaptured : Bool
  /-- The body uses the `arguments` of the function around the loop. -/
  argumentsCaptured : Bool
  /-- The loop variables the body assigns. -/
  reassigned : List String
  /-- The names the blocks of the body declare anew in each iteration, once for each
  block that declares them. -/
  bodyDeclarations : List String
  /-- The names that refer to something outside the loop. -/
  freeNames : List String
  /-- The function-scoped variables the body declares, in source order. -/
  bodyVars : List String
  /-- The first construct that suspends the function around the loop. -/
  suspension : Option (Keyword × Span)
  /-- The first construct that refers to the function around the loop. -/
  functionBound : Option (Keyword × Span)
  /-- The first `var` declaration of the body that declares by a pattern. -/
  destructuringVar : Option Span
deriving DecidableEq, Repr

namespace Record

/-- Sum up the findings of a loop. -/
def ofFindings (findings : List Finding) : Record where
  variableCaptured := decide (Finding.captured .loopVariable ∈ findings)
  bodyBindingCaptured := decide (Finding.captured .iteration ∈ findings)
  innerLoopBindingCaptured := decide (Finding.captured .innerLoop ∈ findings)
  thisCaptured := decide (Finding.usesThis ∈ findings)
  argumentsCaptured := decide (Finding.usesArguments ∈ findings)
  reassigned := (findings.filterMap fun
    | .reassigned name => some name
    | _ => none).foldl addName []
  bodyDeclarations := findings.filterMap fun
    | .declared name => some name
    | _ => none
  freeNames := (findings.filterMap fun
    | .free name => some name
    | _ => none).foldl addName []
  bodyVars := (findings.filterMap fun
    | .bodyVar name => some name
    | _ => none).foldl addName []
  suspension := findings.findSome? fun
    | .suspends keyword span => some (keyword, span)
    | _ => none
  functionBound := findings.findSome? fun
    | .functionBound keyword span => some (keyword, span)
    | _ => none
  destructuringVar := findings.findSome? fun
    | .destructuringVar span => some span
    | _ => none

/-- The body has to run in a function of its own to renew its bindings. -/
def needsExtraction (record : Record) : Bool :=
  record.variableCaptured || record.bodyBindingCaptured

/-- That function has to copy its parameter back to the loop variable. -/
def needsWriteBack (record : Record) (name : String) : Bool :=
  record.needsExtraction && decide (name ∈ record.reassigned)

end Record

end Capture

end LoopLowering
