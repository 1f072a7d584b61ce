/-
The kinds of node a program tree is made of.

A tree is a rose tree: every node has a form, a span and a list of parts.  The form
says what the node is and carries everything about it that is not itself a tree:
operator text, flags, literal values.  Labels, and the name a function expression
gives itself, are carried by the form too, because nothing in a program refers to
them the way it refers to a variable; only the collection of names in use looks at
them.

Where a node may or may not have a part, the missing part is written as a node of
form `absent`; where it has several lists of parts, each list is a node of form
`list`.  So a form fixes how many parts its nodes have, or says that all its parts
are of one kind.
-/

namespace LoopLowering

/-- A range of source positions. -/
structure Span where
  start : Nat
  stop : Nat
deriving DecidableEq, Inhabited, Repr

/-- The span of a node no source text stands behind. -/
def Span.generated : Span := ⟨0, 0⟩

/-- A label, or the name a function expression gives itself. -/
structure Name where
  text : String
  optional : Bool
  span : Span
deriving DecidableEq, Inhabited, Repr

/-- How a declaration scopes its names: to the function around it, or to the block
around it (`let`, and `const` when `constant`). -/
inductive VarKind where
  | var
  | lexical (constant : Bool)
deriving DecidableEq, Inhabited, Repr

/-- Whether the declaration binds per block rather than per function. -/
def VarKind.isBlockScoped : VarKind → Bool
  | .var => false
  | .lexical _ => true

/-- What an identifier stands for at its place in the tree. -/
inductive Role where
  /-- An expression. -/
  | use
  /-- A pattern: a declared name, a parameter or an assignment target. -/
  | bind
  /-- Both key and value of an object literal's property. -/
  | short
  /-- The name of a declaration, an import, an export, an element or a type. -/
  | title
deriving DecidableEq, Inhabited, Repr

/-- Which of the three kinds of class method a method is. -/
inductive MethodKind where
  | method
  | getter
  | setter
deriving DecidableEq, Inhabited, Repr

/-- The two expressions that name a property of the running code itself. -/
inductive MetaKind where
  | newTarget
  | importMeta
deriving DecidableEq, Inhabited, Repr

/-- A piece of literal text in a template. -/
structure TemplateText where
  tail : Bool
  cooked : Option String
  raw : String
  span : Span
deriving DecidableEq, Inhabited, Repr

/-- The kind of a node, with its data. -/
inductive Form where
  -- Places in other nodes
  | absent
  | list
  -- Statements
  | block
  | empty
  | debugger
  | withStmt
  | returnStmt
  | labeled (label : Name)
  | breakStmt (label : Option Name)
  | continueStmt (label : Option Name)
  | ifStmt
  | switchStmt
  | switchCase
  | caseBody
  | throwStmt
  | tryStmt
  | catchClause
  | whileStmt
  | doWhileStmt
  | forStmt
  | forInStmt
  | forOfStmt (isAwait : Bool)
  | exprStmt
  -- Declarations
  | varDecl (kind : VarKind) (declare : Bool)
  | declarator (definite : Bool)
  | functionDecl (declare : Bool)
  | classDecl (declare : Bool)
  | usingDecl (isAwait : Bool)
  | enumDecl
  | enumMember
  | moduleDecl (isNamespace : Bool)
  | moduleBlock
  -- Functions and classes
  | function (generator async : Bool)
  | parameter
  | decorator
  | classBody (isAbstract : Bool)
  | constructor
  | method (kind : MethodKind) (isStatic isAbstract : Bool)
  | privateMethod (kind : MethodKind) (isStatic : Bool)
  | classProperty (isStatic declare : Bool)
  | privateProperty (isStatic : Bool)
  | autoAccessor (isStatic : Bool)
  | staticBlock
  | parameterProperty (accessibility : Option String) (readonly : Bool)
  -- Expressions
  | thisExpr
  | array
  | object
  | functionExpr (name : Option Name)
  | unary (operator : String)
  | update (operator : String) (before : Bool)
  | binary (operator : String)
  | assign (operator : String)
  | member
  | superMember
  | conditional
  | call
  | newExpr
  | sequence
  | ident (role : Role) (name : String) (optional : Bool)
  | template (texts : List TemplateText)
  | taggedTemplate
  | arrow (async generator : Bool)
  | classExpr
  | yieldExpr (delegate : Bool)
  | metaProperty (kind : MetaKind)
  | awaitExpr
  | paren
  | optionalChain (optional : Bool)
  | superRef
  | importCallee (phase : String)
  | arg (spread : Option Span)
  | spread (dots : Span)
  | typeAs
  | typeAssertion
  | nonNull
  -- Literals
  | string (value : String) (raw : Option String)
  | boolean (value : Bool)
  | null
  | number (value : Int) (raw : Option String)
  | bigInt (sign : Int) (digits : List Nat) (raw : Option String)
  | regExp (pattern flags : String)
  -- Properties
  | keyValue
  | getter
  | setter
  | methodProperty
  | propName (name : String)
  | privateName (name : String)
  | computed
  -- Patterns
  | arrayPat (optional : Bool)
  | objectPat (optional : Bool)
  | rest (dots : Span)
  | assignPat
  | keyValuePat
  | assignPatProp
  -- Elements in markup
  | element
  | fragment
  | openingElement (selfClosing : Bool)
  | closingElement
  | openingFragment
  | closingFragment
  | elementMember
  | markupAttribute
  | container
  | emptyContainer
  | spreadChild
  | markupText (value raw : String)
  -- Modules
  | program (interpreter : Option String)
  | importDecl (phase : String)
  | importNamed
  | importDefault
  | importNamespace
  | exportDecl
  | exportNamed
  | exportSpecifier
  | exportNamespace
  | exportDefaultDecl
  | exportDefaultExpr
  | exportAll
  -- Types
  | ascription
  | keywordType (kind : String)
  | typeReference
  | arrayType
deriving DecidableEq, Inhabited

end LoopLowering
