/-
Regions and their first loop.

A region is the body of a module or of a function: the code that shares one scope for
`var`.  A region is lowered one loop at a time, always the first block-scoped loop in
source order that is not inside a closure.  `Node.firstCandidate?` finds it,
`Node.splice?` puts other statements in its place, and `Node.mentionsOutside` tells
whether a name is used in the rest of the region.
-/
import LoopLowering.Loop
import LoopLowering.Tree.Emit

namespace LoopLowering

/-! ### Finding and replacing the first loop -/

mutual

/-- The first block-scoped loop among the parts of a node, closures left out. -/
def Node.firstCandidate? : Node → Option Node
  | .mk form _ parts => if form.isClosure then none else firstCandidateIn? parts

/-- The first block-scoped loop in a list of nodes, closures left out. -/
def firstCandidateIn? : List Node → Option Node
  | [] => none
  | node :: nodes =>
    if node.isCandidate then some node
    else match node.firstCandidate? with
      | some loop => some loop
      | none => firstCandidateIn? nodes

end

/-- Whether the parts of the node are statements in a row, so that several can stand
where one was. -/
def Form.isStmtList : Form → Bool
  | .block | .caseBody | .program _ | .moduleBlock => true
  | _ => false

mutual

/-- Put statements in the place of the first block-scoped loop of a region.  In a place
for a single statement they stand in a block. -/
def Node.splice? (replacement : List Node) : Node → Option Node
  | .mk form span parts =>
    if form.isClosure then none
    else (spliceIn? replacement form.isStmtList parts).map (.mk form span)

/-- Put statements in the place of the first block-scoped loop in a list of nodes. -/
def spliceIn? (replacement : List Node) (inList : Bool) : List Node → Option (List Node)
  | [] => none
  | node :: nodes =>
    if node.isCandidate then
      some (if inList then replacement ++ nodes else .block .generated replacement :: nodes)
    else match node.splice? replacement with
      | some node => some (node :: nodes)
      | none => (spliceIn? replacement inList nodes).map (node :: ·)

end

/-! ### Names used in the rest of the region -/

/-- Whether a scope of this form keeps a name it binds to itself, as far as mentions
of the name in its region are concerned. -/
def Form.ownsNames : Form → Bool
  | .functionExpr _ => true
  | form => form.isClosure

/-- Whether the body of a loop is a block that declares a name. -/
def Node.bodyDeclares (name : String) (body : Node) : Bool :=
  body.form == .block && decide (name ∈ body.scopeNames)

mutual

/-- Whether a tree mentions a name other than as its own.  A closure that binds the
name owns it, and so does a block-scoped loop that declares it in its head or at the
top of its body. -/
def Node.mentions (name : String) : Node → Bool
  | .mk form span parts =>
    if form.ownsNames && decide (name ∈ (Node.mk form span parts).scopeNames) then false
    else match form, parts with
      | .ident _ used _, parts => used == name || mentionsIn name parts
      | .forStmt, [.mk (.varDecl (.lexical _) _) _ ds, test, update, body] =>
        !decide (name ∈ bindingNamesOf ds) &&
          (mentionsInInits name ds || test.mentions name || update.mentions name ||
            (!body.bodyDeclares name && body.mentions name))
      | .forInStmt, [.mk (.varDecl (.lexical _) _) _ ds, right, body] =>
        !decide (name ∈ bindingNamesOf ds) &&
          (mentionsInInits name ds || right.mentions name ||
            (!body.bodyDeclares name && body.mentions name))
      | .forOfStmt _, [.mk (.varDecl (.lexical _) _) _ ds, right, body] =>
        !decide (name ∈ bindingNamesOf ds) &&
          (mentionsInInits name ds || right.mentions name ||
            (!body.bodyDeclares name && body.mentions name))
      | _, parts => mentionsIn name parts

/-- Whether some tree in a list mentions a name other than as its own. -/
def mentionsIn (name : String) : List Node → Bool
  | [] => false
  | node :: nodes => node.mentions name || mentionsIn name nodes

/-- Whether the initialiser of some declarator mentions a name other than as its own. -/
def mentionsInInits (name : String) : List Node → Bool
  | [] => false
  | .mk (.declarator _) _ [_, init] :: nodes => init.mentions name || mentionsInInits name nodes
  | _ :: nodes => mentionsInInits name nodes

end

theorem mentionsIn_eq_any (name : String) (nodes : List Node) :
    mentionsIn name nodes = nodes.any (Node.mentions name) := by
  induction nodes with
  | nil => rfl
  | cons node nodes ih => rw [mentionsIn, ih, List.any_cons]

/-- Whether a region mentions a name outside its first block-scoped loop. -/
def Node.mentionsOutside (region : Node) (name : String) : Bool :=
  ((region.splice? []).getD region).mentions name

/-! ### How many loops are left -/

mutual

/-- The number of block-scoped loops in a node, closures left out. -/
def Node.candidates : Node → Nat
  | .mk form span parts =>
    if form.isClosure then 0
    else (if form.isLoop && (Node.mk form span parts).isCandidate then 1 else 0) +
      candidatesIn parts

/-- The number of block-scoped loops in a list of nodes, closures left out. -/
def candidatesIn : List Node → Nat
  | [] => 0
  | node :: nodes => node.candidates + candidatesIn nodes

end

end LoopLowering
