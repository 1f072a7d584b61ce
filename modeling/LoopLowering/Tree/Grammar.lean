/-
Which trees are programs.

Every form belongs to one category, and says for each of its parts which categories can
stand there.  A tree is well formed when every node agrees with its form.  The functions
of this library are defined on all trees; what a tree means is said for well-formed
ones, and those are what a reader of source text produces.
-/
import LoopLowering.Tree.Node

namespace LoopLowering

/-! ### Categories -/

/-- What a node can be used as. -/
inductive Category where
  | absent
  | list
  -- Statements and modules
  | block
  | empty
  | stmt
  | varDecl
  | usingDecl
  | decl
  | item
  | program
  | moduleBlock
  | switchCase
  | caseBody
  | catchClause
  | declarator
  | enumMember
  | importSpecifier
  | exportSpecifier
  | title
  -- Functions and classes
  | function
  | classBody
  | param
  | paramProperty
  | decorator
  | member
  -- Expressions
  | expr
  | access
  | functionExpr
  | classExpr
  | template
  | string
  | number
  | privateName
  | superRef
  | importCallee
  | arg
  | spread
  | property
  | propName
  | computed
  -- Patterns
  | binding
  | pattern
  | assignPat
  | rest
  | patternProperty
  -- Elements in markup
  | element
  | elementName
  | opening
  | closing
  | openingFragment
  | closingFragment
  | markupAttribute
  | container
  | emptyContainer
  | child
  -- Types
  | ascription
  | type
deriving DecidableEq, Repr

/-- The category of the nodes of a form. -/
def Form.category : Form → Category
  | .absent => .absent
  | .list => .list
  | .block => .block
  | .empty => .empty
  | .debugger | .withStmt | .returnStmt | .labeled _ | .breakStmt _ | .continueStmt _
  | .ifStmt | .switchStmt | .throwStmt | .tryStmt | .whileStmt | .doWhileStmt | .forStmt
  | .forInStmt | .forOfStmt _ | .exprStmt => .stmt
  | .switchCase => .switchCase
  | .caseBody => .caseBody
  | .catchClause => .catchClause
  | .varDecl _ _ => .varDecl
  | .usingDecl _ => .usingDecl
  | .functionDecl _ | .classDecl _ | .enumDecl | .moduleDecl _ => .decl
  | .declarator _ => .declarator
  | .enumMember => .enumMember
  | .moduleBlock => .moduleBlock
  | .function _ _ => .function
  | .parameter => .param
  | .parameterProperty _ _ => .paramProperty
  | .decorator => .decorator
  | .classBody _ => .classBody
  | .constructor | .method _ _ _ | .privateMethod _ _ | .classProperty _ _ | .privateProperty _
  | .autoAccessor _ | .staticBlock => .member
  | .ident .use _ _ => .expr
  | .ident .bind _ _ => .binding
  | .ident .short _ _ => .property
  | .ident .title _ _ => .title
  | .thisExpr | .array | .object | .unary _ | .update _ _ | .binary _ | .assign _
  | .superMember | .conditional | .newExpr | .sequence | .taggedTemplate | .arrow _ _
  | .yieldExpr _ | .metaProperty _ | .awaitExpr | .paren | .optionalChain _ | .typeAs
  | .typeAssertion | .nonNull | .boolean _ | .null | .regExp _ _ => .expr
  | .call | .member => .access
  | .functionExpr _ => .functionExpr
  | .classExpr => .classExpr
  | .template _ => .template
  | .string _ _ => .string
  | .number _ _ | .bigInt _ _ _ => .number
  | .privateName _ => .privateName
  | .superRef => .superRef
  | .importCallee _ => .importCallee
  | .arg _ => .arg
  | .spread _ => .spread
  | .keyValue | .getter | .setter | .methodProperty => .property
  | .propName _ => .propName
  | .computed => .computed
  | .arrayPat _ | .objectPat _ => .pattern
  | .rest _ => .rest
  | .assignPat => .assignPat
  | .keyValuePat | .assignPatProp => .patternProperty
  | .element | .fragment => .element
  | .elementMember => .elementName
  | .openingElement _ => .opening
  | .closingElement => .closing
  | .openingFragment => .openingFragment
  | .closingFragment => .closingFragment
  | .markupAttribute => .markupAttribute
  | .container => .container
  | .emptyContainer => .emptyContainer
  | .spreadChild | .markupText _ _ => .child
  | .program _ => .program
  | .importDecl _ | .exportDecl | .exportNamed | .exportDefaultDecl | .exportDefaultExpr
  | .exportAll => .item
  | .importNamed | .importDefault | .importNamespace => .importSpecifier
  | .exportSpecifier | .exportNamespace => .exportSpecifier
  | .ascription => .ascription
  | .keywordType _ | .typeReference | .arrayType => .type

namespace Category

/-- Declarations. -/
def decls : List Category := [varDecl, usingDecl, decl]

/-- Statements. -/
def stmts : List Category := [block, empty, stmt] ++ decls

/-- What stands at the top of a module. -/
def items : List Category := item :: stmts

/-- Expressions. -/
def exprs : List Category :=
  [expr, access, functionExpr, classExpr, template, string, number, privateName, element]

/-- Patterns, of which any expression is one in an assignment. -/
def patterns : List Category := [binding, pattern, assignPat, rest] ++ exprs

/-- What can be assigned to. -/
def targets : List Category := [binding, pattern] ++ exprs

/-- The names of properties. -/
def keys : List Category := [propName, string, number, computed]

end Category

/-! ### Parts -/

/-- What can stand as one part of a node. -/
inductive Slot where
  | one (categories : List Category)
  | optional (categories : List Category)
  | many (categories : List Category)
  | optionalMany (categories : List Category)

/-- Whether a node is a list of nodes of the given categories. -/
def Node.isListOf (categories : List Category) (node : Node) : Bool :=
  node.form == .list && node.parts.all (categories.contains ·.form.category)

/-- Whether a node can stand in a slot, as far as its own form goes. -/
def Slot.admits : Slot → Node → Bool
  | one categories, node => categories.contains node.form.category
  | optional categories, node => node.isAbsent || categories.contains node.form.category
  | many categories, node => node.isListOf categories
  | optionalMany categories, node => node.isAbsent || node.isListOf categories

/-- What the parts of a node are: one for each slot, or any number of one kind. -/
inductive Shape where
  | fixed (slots : List Slot)
  | repeated (slot : Slot)

/-- Whether nodes fill slots one by one. -/
def fillSlots : List Slot → List Node → Bool
  | [], [] => true
  | slot :: slots, node :: nodes => slot.admits node && fillSlots slots nodes
  | _, _ => false

/-- Whether a list of nodes is a list of parts of this shape. -/
def Shape.admits : Shape → List Node → Bool
  | fixed slots, nodes => fillSlots slots nodes
  | repeated slot, nodes => nodes.all slot.admits

open Category Slot in
/-- The parts of the nodes of a form. -/
def Form.shape : Form → Shape
  | .list => .repeated (.one [])
  | .block | .caseBody => .repeated (.one stmts)
  | .program _ | .moduleBlock => .repeated (.one items)
  | .withStmt => .fixed [one exprs, one stmts]
  | .returnStmt => .fixed [optional exprs]
  | .labeled _ => .fixed [one stmts]
  | .ifStmt => .fixed [one exprs, one stmts, optional stmts]
  | .switchStmt => .fixed [one exprs, many [.switchCase]]
  | .switchCase => .fixed [optional exprs, one [.caseBody]]
  | .throwStmt => .fixed [one exprs]
  | .tryStmt => .fixed [one [.block], optional [.catchClause], optional [.block]]
  | .catchClause => .fixed [optional patterns, one [.block]]
  | .whileStmt | .doWhileStmt => .fixed [one exprs, one stmts]
  | .forStmt => .fixed [optional (.varDecl :: exprs), optional exprs, optional exprs, one stmts]
  | .forInStmt | .forOfStmt _ =>
    .fixed [one (.varDecl :: .usingDecl :: patterns), one exprs, one stmts]
  | .exprStmt => .fixed [one exprs]
  | .varDecl _ _ | .usingDecl _ => .repeated (one [.declarator])
  | .declarator _ => .fixed [one patterns, optional exprs]
  | .functionDecl _ => .fixed [one [.title], one [.function]]
  | .classDecl _ => .fixed [one [.title], one [.classBody]]
  | .enumDecl => .fixed [one [.title], many [.enumMember]]
  | .enumMember => .fixed [one [.title, .string], optional exprs]
  | .moduleDecl _ => .fixed [one [.title, .string], optional [.moduleBlock]]
  | .function _ _ =>
    .fixed [many [.param], many [.decorator], optional [.block], optional [.ascription]]
  | .parameter => .fixed [many [.decorator], one patterns]
  | .parameterProperty _ _ => .fixed [many [.decorator], one [.binding, .assignPat]]
  | .decorator => .fixed [one exprs]
  | .classBody _ => .fixed [many [.decorator], many [.member, .empty], optional exprs]
  | .constructor => .fixed [one keys, many [.param, .paramProperty], optional [.block]]
  | .method _ _ _ => .fixed [one keys, one [.function]]
  | .privateMethod _ _ => .fixed [one [.privateName], one [.function]]
  | .classProperty _ _ => .fixed [one keys, optional exprs, many [.decorator]]
  | .privateProperty _ => .fixed [one [.privateName], optional exprs, many [.decorator]]
  | .autoAccessor _ => .fixed [one (.privateName :: keys), optional exprs, many [.decorator]]
  | .staticBlock => .fixed [one [.block]]
  | .array => .repeated (optional [.arg])
  | .object => .repeated (one [.property, .spread])
  | .functionExpr _ => .fixed [one [.function]]
  | .unary _ | .update _ _ | .awaitExpr | .paren | .nonNull => .fixed [one exprs]
  | .binary _ => .fixed [one exprs, one exprs]
  | .assign _ => .fixed [one targets, one exprs]
  | .member => .fixed [one exprs, one [.propName, .privateName, .computed]]
  | .superMember => .fixed [one [.superRef], one [.propName, .computed]]
  | .conditional => .fixed [one exprs, one exprs, one exprs]
  | .call => .fixed [one (.superRef :: .importCallee :: exprs), many [.arg]]
  | .newExpr => .fixed [one exprs, optionalMany [.arg]]
  | .sequence | .template _ => .repeated (one exprs)
  | .taggedTemplate => .fixed [one exprs, one [.template]]
  | .arrow _ _ => .fixed [many patterns, one (.block :: exprs), optional [.ascription]]
  | .classExpr => .fixed [optional [.title], one [.classBody]]
  | .yieldExpr _ => .fixed [optional exprs]
  | .optionalChain _ => .fixed [one [.access]]
  | .arg _ | .spread _ => .fixed [one exprs]
  | .typeAs | .typeAssertion => .fixed [one exprs, one [.type]]
  | .ident .bind _ _ => .fixed [optional [.ascription]]
  | .keyValue => .fixed [one keys, one exprs]
  | .getter => .fixed [one keys, optional [.block]]
  | .setter => .fixed [one keys, one patterns, optional [.block]]
  | .methodProperty => .fixed [one keys, one [.function]]
  | .computed => .fixed [one exprs]
  | .arrayPat _ => .fixed [many (.absent :: patterns), optional [.ascription]]
  | .objectPat _ => .fixed [many [.patternProperty, .rest], optional [.ascription]]
  | .rest _ => .fixed [one patterns, optional [.ascription]]
  | .assignPat => .fixed [one patterns, one exprs]
  | .keyValuePat => .fixed [one keys, one patterns]
  | .assignPatProp => .fixed [one [.binding], optional exprs]
  | .element =>
    .fixed [one [.opening], many [.element, .container, .child], optional [.closing]]
  | .fragment =>
    .fixed [one [.openingFragment], many [.element, .container, .child],
      one [.closingFragment]]
  | .openingElement _ =>
    .fixed [one [.title, .elementName], many [.markupAttribute, .spread]]
  | .closingElement => .fixed [one [.title, .elementName]]
  | .elementMember => .fixed [one [.title, .elementName], one [.propName]]
  | .markupAttribute => .fixed [one [.propName], optional [.string, .container, .element]]
  | .container => .fixed [one (.emptyContainer :: exprs)]
  | .spreadChild => .fixed [one exprs]
  | .importDecl _ => .fixed [many [.importSpecifier], one [.string]]
  | .importNamed => .fixed [one [.title], optional [.title, .string]]
  | .importDefault | .importNamespace => .fixed [one [.title]]
  | .exportDecl => .fixed [one decls]
  | .exportNamed => .fixed [many [.exportSpecifier], optional [.string]]
  | .exportSpecifier => .fixed [one [.title, .string], optional [.title, .string]]
  | .exportNamespace => .fixed [one [.title, .string]]
  | .exportDefaultDecl => .fixed [one [.functionExpr, .classExpr]]
  | .exportDefaultExpr => .fixed [one exprs]
  | .exportAll => .fixed [one [.string]]
  | .ascription | .arrayType => .fixed [one [.type]]
  | .typeReference => .fixed [one [.title]]
  | .absent | .empty | .debugger | .breakStmt _ | .continueStmt _ | .thisExpr | .ident _ _ _
  | .metaProperty _ | .superRef | .importCallee _ | .string _ _ | .boolean _ | .null
  | .number _ _ | .bigInt _ _ _ | .regExp _ _ | .propName _ | .privateName _
  | .openingFragment | .closingFragment | .emptyContainer | .markupText _ _
  | .keywordType _ => .fixed []

/-! ### Well-formed trees -/

mutual

/-- Whether every node of a tree agrees with its form.  What stands in a list is for
the node around the list to say. -/
def Node.isWellFormed : Node → Bool
  | .mk form _ parts => (form == .list || form.shape.admits parts) && areWellFormed parts

/-- Whether every node of a list of trees agrees with its form. -/
def areWellFormed : List Node → Bool
  | [] => true
  | node :: nodes => node.isWellFormed && areWellFormed nodes

end

/-- A whole program. -/
def Node.IsProgram (node : Node) : Prop :=
  node.form.category = .program ∧ node.isWellFormed = true

instance (node : Node) : Decidable node.IsProgram := by
  unfold Node.IsProgram
  infer_instance

/-- A statement. -/
def Node.IsStmt (node : Node) : Prop :=
  node.form.category ∈ Category.stmts ∧ node.isWellFormed = true

instance (node : Node) : Decidable node.IsStmt := by
  unfold Node.IsStmt
  infer_instance

end LoopLowering
