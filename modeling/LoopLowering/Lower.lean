/-
Lowering one block-scoped loop.

A loop whose bindings no closure can reach is flattened: its declarations become `var`,
renamed where they would clash.  Otherwise the body becomes a function that is called
once per iteration:

    var loop = function (i) { setTimeout(() => log(i)); };
    for (var i = 0; i < 10; i += 1) loop(i);

In either case the loop variables become variables of the function around the loop, and
are renamed if anything else there uses their name.
-/
import LoopLowering.Flatten
import LoopLowering.Hoist
import LoopLowering.Jumps
import LoopLowering.Refusal
import LoopLowering.Region

namespace LoopLowering

/-- What became of a loop. -/
inductive Outcome where
  /-- Its declarations became `var` in place. -/
  | flattened
  /-- Its body became a function. -/
  | extracted (functionName : String)
deriving DecidableEq, Repr

/-- What was found out about a loop, and what became of it. -/
structure Report where
  span : Span
  outcome : Outcome
  capture : Capture.Record
deriving DecidableEq, Repr

/-- A computation that draws names and may refuse a loop.  The names drawn before a
refusal stay taken. -/
abbrev Lowering := ExceptT Refusal Naming

/-! ### Loop variables -/

/-- Whether a declarator declares a single name. -/
def Node.declaresName : Node → Bool
  | .mk (.declarator _) _ (.mk (.ident .bind _ _) _ _ :: _) => true
  | _ => false

/-- Rename a loop variable in the head of its loop. -/
def Loop.renameHead (loop : Loop) (old new : String) : Loop :=
  { loop with
    decl := { loop.decl with declarators := loop.decl.declarators.map (·.rename old new) }
    head := loop.head.map (·.rename old new) }

/-- Rename in the head those of the given loop variables that are mentioned outside the
loop, and say what each of them is called there now. -/
def Loop.renameMentioned (mentioned : String → Bool) :
    List String → Loop → Naming (List String × Loop)
  | [], loop => pure ([], loop)
  | name :: names, loop =>
    if mentioned name then do
      let renamed ← Naming.rename name
      let (outer, loop) ← renameMentioned mentioned names (loop.renameHead name renamed)
      return (renamed :: outer, loop)
    else do
      let (outer, loop) ← renameMentioned mentioned names loop
      return (name :: outer, loop)

/-- Whether a name the body declares would clash with another once both are variables
of the same function. -/
def bodyClash (record : Capture.Record) (loopVars : List String) (name : String) : Bool :=
  decide (1 < record.bodyDeclarations.count name) || decide (name ∈ loopVars) ||
    decide (name ∈ record.freeNames)

/-- The loop with its head declared by `var`. -/
def Loop.withVarHead (loop : Loop) : Loop :=
  { loop with decl := { loop.decl with kind := .var } }

/-! ### Flattening -/

/-- Apply several renamings to a tree, one after the other. -/
def renameAll (renamings : List (String × String)) (node : Node) : Node :=
  renamings.foldl (fun node (old, new) => node.rename old new) node

/-- Flatten a loop whose variables are called `outer` in its head. -/
def Loop.flattened (loop : Loop) (loopVars outer : List String) (record : Capture.Record)
    (mentioned : String → Bool) : Naming (List Node × Report) := do
  let clashes := fun name => bodyClash record loopVars name || mentioned name
  let body ← (renameAll (loopVars.zip outer) loop.body).flatten clashes
  return ([{ loop.withVarHead with body }.toNode], ⟨loop.span, .flattened, record⟩)

/-! ### Extraction -/

/-- The statements of a loop body. -/
def Node.bodyStmts : Node → List Node
  | .mk .block _ stmts => stmts
  | stmt => [stmt]

/-- The parts of the function a loop body becomes. -/
structure LoopFunction where
  params : List String
  /-- The assignments that copy parameters back to loop variables. -/
  writeBack : List Node
  stmts : List Node

/-- Choose the parameters for loop variables, given as pairs of the name in the body and
the name in the head.  A variable to be written back gets a parameter of its own name. -/
def chooseParams (writtenBack : String → Bool) : List (String × String) → List Node →
    Naming LoopFunction
  | [], stmts => pure ⟨[], [], stmts⟩
  | (name, outer) :: vars, stmts =>
    if writtenBack name then do
      let param ← Naming.fresh name
      let function ← chooseParams writtenBack vars (stmts.map (·.rename name param))
      let back := Node.exprStmt (.assignTo outer (.use param .generated) .generated)
      return ⟨param :: function.params, back :: function.writeBack, function.stmts⟩
    else do
      let function ← chooseParams writtenBack vars stmts
      return ⟨name :: function.params, function.writeBack, function.stmts⟩

/-- Draw a suffixed name if it is needed. -/
def aliasFor (needed : Bool) (base : String) : Naming (Option String) :=
  if needed then some <$> Naming.freshSuffixed base else pure none

/-- The statement `var alias = value;`, where there is an alias. -/
def aliasStmt (alias? : Option String) (value : Node) : List Node :=
  match alias? with
  | some name => [.varStmt .generated [(name, value)]]
  | none => []

/-- Why the body of a loop cannot become a function, before its jumps are looked at. -/
def extractionRefusal? (record : Capture.Record) (span : Span) : Option Refusal :=
  match record.suspension, record.functionBound, record.destructuringVar with
  | some (keyword, _), _, _ => some (.suspendInBody keyword span)
  | none, some (keyword, _), _ => some (.functionBound keyword span)
  | none, none, some _ => some (.destructuringVar span)
  | none, none, none => none

/-- Make a function of the body of a loop whose variables are called `outer` in its
head. -/
def Loop.extracted (loop : Loop) (loopVars outer : List String) (record : Capture.Record)
    (options : Options) : Lowering (List Node × Report) := do
  if let some refusal := extractionRefusal? record loop.span then
    throw refusal
  let stmts ← flattenStmts (bodyClash record loopVars) false (hoistStmts loop.body.bodyStmts)
  let writtenBack := fun name => loop.head.isPlain && record.needsWriteBack name
  let function ← chooseParams writtenBack (loopVars.zip outer) stmts
  let arguments? ← aliasFor record.argumentsCaptured "arguments"
  let this? ← aliasFor record.thisCaptured "this"
  let stmts := useAliasesIn ⟨this?, arguments?⟩ function.stmts
  let (stmts, sites?) :=
    redirectJumps ⟨function.writeBack, options⟩ loop.labelNames loop.span stmts
  let sites ← ExceptT.mk (pure sites?)
  let functionName ← Naming.fresh options.functionName
  let resultName ← if sites.needDispatch then Naming.fresh options.resultName else pure ""
  let hoisted := if record.bodyVars.isEmpty then []
    else [Node.varStmt .generated (record.bodyVars.map (·, .absent))]
  let functionStmt := Node.varStmt .generated
    [(functionName, .functionOf function.params (stmts ++ function.writeBack) loop.span)]
  let body := sites.dispatch (.callOf functionName outer .generated) resultName options
  return (aliasStmt arguments? (.use "arguments" .generated) ++
    aliasStmt this? (.this .generated) ++ hoisted ++ [functionStmt] ++
    [{ loop.withVarHead with body }.toNode],
    ⟨loop.span, .extracted functionName, record⟩)

/-! ### Either -/

/-- Lower a loop, given which names are mentioned in the rest of its region. -/
def Loop.lower (loop : Loop) (mentioned : String → Bool) (options : Options) :
    Lowering (List Node × Report) := do
  if loop.decl.declarators.any (!·.declaresName) then
    throw (.destructuringHead loop.span)
  let record := loop.capture
  if record.innerLoopBindingCaptured then
    throw (.innerLoopCapture loop.span)
  let loopVars := loop.decl.names
  let (outer, loop) ← loop.renameMentioned mentioned loopVars
  if record.needsExtraction then loop.extracted loopVars outer record options
  else loop.flattened loopVars outer record mentioned

/-- Lower a statement that is a block-scoped loop: the statements to put in its place,
and a report. -/
def Node.lowerLoop (stmt : Node) (mentioned : String → Bool) (options : Options) :
    Lowering (List Node × Report) :=
  match Loop.ofNode? stmt with
  | some loop => loop.lower mentioned options
  | none => throw (.internal "candidate is not a block-scoped loop" stmt.span)

end LoopLowering
