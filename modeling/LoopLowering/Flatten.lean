/-
Turning the `let` and `const` of a loop body into `var`.

All blocks of a body end up sharing one function scope, so a name that would clash
there is first renamed, in the block that declares it and everything under it.  Blocks
are handled from the outside in: the names of a block are settled before its statements
are looked at.  Nested block-scoped loops and closures are left alone.

A `let` without initialiser starts out undefined each time it is reached; a `var` keeps
its value.  Where the statement can be reached again in the same function, the
declaration is therefore given the initialiser `void 0`.
-/
import LoopLowering.Loop
import LoopLowering.Names
import LoopLowering.Rename

namespace LoopLowering

/-! ### One statement list -/

/-- Give an uninitialised declarator the initialiser `void 0`. -/
def Node.resetInit : Node → Node
  | .mk (.declarator definite) span [pattern, init] =>
    .mk (.declarator definite) span [pattern, if init.isAbsent then .undefined span else init]
  | node => node

/-- Turn a `let` or `const` statement into a `var`; a `let` without initialiser is
reset if asked for. -/
def Node.flattenDecl (reset : Bool) : Node → Node
  | .mk (.varDecl (.lexical constant) declare) span declarators =>
    .varDecl .var declare span
      (if reset && !constant then declarators.map Node.resetInit else declarators)
  | node => node

/-- Rename those of the given names that clash, in order, throughout a statement list. -/
def renameClashing (clashes : String → Bool) : List String → List Node → Naming (List Node)
  | [], stmts => pure stmts
  | name :: names, stmts =>
    if clashes name then do
      let renamed ← Naming.rename name
      renameClashing clashes names (stmts.map (·.rename name renamed))
    else renameClashing clashes names stmts

/-! ### The blocks of a body -/

mutual

/-- Change the statement list of every outermost block of a node.  `change` is told
whether the block can be reached again, which is so inside a loop. -/
def Node.changeBlocks (change : Bool → List Node → Naming (List Node)) (again : Bool) :
    Node → Naming Node
  | .mk form span parts =>
    if form.isClosure || (Node.mk form span parts).isCandidate then pure (.mk form span parts)
    else match form with
      | .block => do return .mk .block span (← change again parts)
      | _ => do return .mk form span (← changeBlocksIn change (again || form.isLoop) parts)

/-- Change the statement list of every outermost block of a list of nodes. -/
def changeBlocksIn (change : Bool → List Node → Naming (List Node)) (again : Bool) :
    List Node → Naming (List Node)
  | [] => pure []
  | node :: nodes => do
    return (← node.changeBlocks change again) :: (← changeBlocksIn change again nodes)

end

mutual

/-- How deep blocks are nested in a node. -/
def Node.blockDepth : Node → Nat
  | .mk form _ parts => (if form = .block then 1 else 0) + blockDepthOf parts

/-- How deep blocks are nested in a list of nodes. -/
def blockDepthOf : List Node → Nat
  | [] => 0
  | node :: nodes => max node.blockDepth (blockDepthOf nodes)

end

/-- Flatten a statement list and the blocks in it, down to the given depth. -/
def flattenTo (clashes : String → Bool) : (depth : Nat) → (again : Bool) → List Node →
    Naming (List Node)
  | 0, _, stmts => pure stmts
  | depth + 1, again, stmts => do
    let stmts ← renameClashing clashes (stmts.flatMap Node.blockScopedNames) stmts
    changeBlocksIn (flattenTo clashes depth) again (stmts.map (·.flattenDecl again))

/-- Flatten a statement list and all blocks in it. -/
def flattenStmts (clashes : String → Bool) (again : Bool) (stmts : List Node) :
    Naming (List Node) :=
  flattenTo clashes (blockDepthOf stmts + 1) again stmts

/-- Flatten all blocks of a loop body that stays in place. -/
def Node.flatten (clashes : String → Bool) (body : Node) : Naming Node :=
  body.changeBlocks (flattenTo clashes body.blockDepth) true

end LoopLowering
