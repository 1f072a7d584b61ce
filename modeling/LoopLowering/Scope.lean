/-
Which names a scope binds.

Patterns bind names, declarations bind the names of their patterns, and blocks,
loop heads, catch clauses, function expressions and function-like nodes open scopes.
`Node.scopeNames` answers for every node which names the scope it opens binds; for a
node that opens none the answer is empty.
-/
import LoopLowering.Tree.Node

namespace LoopLowering

/-- Add a name to a list that holds every name once, in order of first arrival. -/
def addName (names : List String) (name : String) : List String :=
  if name ∈ names then names else names ++ [name]

/-- Adding a name adds it and nothing else. -/
theorem mem_addName {names : List String} {name other : String} :
    other ∈ addName names name ↔ other ∈ names ∨ other = name := by
  unfold addName
  split
  · exact ⟨Or.inl, fun h => h.elim id fun e => e ▸ ‹_›⟩
  · simp

mutual

/-- The names a pattern, a parameter or a declarator binds, in source order.  Default
values and computed keys bind nothing. -/
def Node.bindingNames : Node → List String
  | .mk (.ident .bind name _) _ _ => [name]
  | .mk .list _ items => bindingNamesOf items
  | .mk (.arrayPat _) _ [elements, _] => elements.bindingNames
  | .mk (.objectPat _) _ [properties, _] => properties.bindingNames
  | .mk (.rest _) _ [pattern, _] => pattern.bindingNames
  | .mk .assignPat _ [pattern, _] => pattern.bindingNames
  | .mk .keyValuePat _ [_, pattern] => pattern.bindingNames
  | .mk .assignPatProp _ [pattern, _] => pattern.bindingNames
  | .mk (.declarator _) _ [pattern, _] => pattern.bindingNames
  | .mk .parameter _ [_, pattern] => pattern.bindingNames
  | .mk (.parameterProperty _ _) _ [_, pattern] => pattern.bindingNames
  | _ => []

/-- The names the nodes of a list bind, in source order. -/
def bindingNamesOf : List Node → List String
  | [] => []
  | node :: nodes => node.bindingNames ++ bindingNamesOf nodes

end

theorem bindingNamesOf_eq_flatMap (nodes : List Node) :
    bindingNamesOf nodes = nodes.flatMap Node.bindingNames := by
  induction nodes with
  | nil => rfl
  | cons node nodes ih => rw [bindingNamesOf, ih, List.flatMap_cons]

/-- The names a `var`, `let` or `const` declaration declares. -/
def Node.declaredNames : Node → List String
  | .mk (.varDecl _ _) _ declarators => bindingNamesOf declarators
  | _ => []

/-- The names a `let` or `const` declaration declares. -/
def Node.blockScopedNames : Node → List String
  | .mk (.varDecl (.lexical _) _) _ declarators => bindingNamesOf declarators
  | _ => []

/-- The names a statement declares in the block around it. -/
def Node.lexicalNames : Node → List String
  | .mk (.varDecl (.lexical _) _) _ declarators => bindingNamesOf declarators
  | .mk (.classDecl _) _ [.mk (.ident _ name _) _ _, _] => [name]
  | .mk (.functionDecl _) _ [.mk (.ident _ name _) _ _, _] => [name]
  | _ => []

/-- The names a statement list declares for itself. -/
def lexicalNamesOf (stmts : List Node) : List String :=
  stmts.flatMap Node.lexicalNames

/-! ### Closures and hoisted declarations -/

/-- Whether the node is a function of some kind or a class: a `var` inside it belongs
to it, and a jump inside it cannot leave it. -/
def Form.isClosure : Form → Bool
  | .function _ _ | .arrow _ _ | .classBody _ | .constructor | .getter | .setter => true
  | _ => false

mutual

/-- The names of the `var` declarations in a node, closures left out. -/
def Node.varNames : Node → List String
  | .mk form _ parts =>
    if form.isClosure then []
    else match form with
      | .varDecl .var _ => bindingNamesOf parts
      | _ => varNamesOf parts

/-- The names of the `var` declarations in a list of nodes, closures left out. -/
def varNamesOf : List Node → List String
  | [] => []
  | node :: nodes => node.varNames ++ varNamesOf nodes

end

theorem varNamesOf_eq_flatMap (nodes : List Node) :
    varNamesOf nodes = nodes.flatMap Node.varNames := by
  induction nodes with
  | nil => rfl
  | cons node nodes ih => rw [varNamesOf, ih, List.flatMap_cons]

/-- The names of the `var` declarations in a statement list, each once. -/
def hoistedVarNames (stmts : List Node) : List String :=
  (varNamesOf stmts).foldl addName []

/-! ### Scopes -/

/-- The names the head of a loop binds for the duration of the loop. -/
def Node.headNames : Node → List String
  | .mk .forStmt _ (head :: _) => head.blockScopedNames
  | .mk .forInStmt _ (head :: _) => head.blockScopedNames
  | .mk (.forOfStmt _) _ (head :: _) => head.blockScopedNames
  | _ => []

/-- The names declared at the top of a function body. -/
def Node.bodyNames : Node → List String
  | .mk .block _ stmts => hoistedVarNames stmts ++ lexicalNamesOf stmts
  | _ => []

/-- The names bound by the scope a node opens. -/
def Node.scopeNames : Node → List String
  | .mk .block _ stmts => lexicalNamesOf stmts
  | .mk .catchClause _ (param :: _) => param.bindingNames
  | .mk (.functionExpr (some name)) _ _ => [name.text]
  | .mk (.function _ _) _ [params, _, body, _] => params.bindingNames ++ body.bodyNames
  | .mk (.arrow _ _) _ [params, body, _] => params.bindingNames ++ body.bodyNames
  | .mk .constructor _ [_, params, body] => params.bindingNames ++ body.bodyNames
  | .mk .getter _ [_, body] => body.bodyNames
  | .mk .setter _ [_, param, body] => param.bindingNames ++ body.bodyNames
  | node => node.headNames

end LoopLowering
