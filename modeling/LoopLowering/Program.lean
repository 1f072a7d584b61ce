/-
Lowering all block-scoped loops of a program.

A program is taken region by region, outermost first.  In each region the first loop is
lowered and its replacement put in its place, until no loop is left outside closures;
then the functions in the region are taken in source order, those included that a loop
body has just become.

Both repetitions are bounded by a count taken beforehand.  Lowering a loop leaves one
loop fewer in its region outside closures.  And it trades one loop for at most one new
function, so that functions and loops together never grow in number while each step
inwards leaves one function behind.
-/
import LoopLowering.Lower

namespace LoopLowering

/-- Lowering with the reports so far. -/
abbrev ProgramLowering := StateT (List Report) Lowering

/-! ### One region -/

/-- Lower the first loop of a region, as often as there may be loops. -/
def lowerRegionTo (options : Options) : (loops : Nat) → Node → ProgramLowering Node
  | 0, region => pure region
  | loops + 1, region =>
    match region.firstCandidate? with
    | none => pure region
    | some stmt => do
      let (replacement, report) ← stmt.lowerLoop region.mentionsOutside options
      modify (· ++ [report])
      match region.splice? replacement with
      | some region => lowerRegionTo options loops region
      | none => throw (.internal "rewritten loop could not be spliced back" stmt.span)

/-- Lower all loops of a region outside closures. -/
def lowerRegion (options : Options) (region : Node) : ProgramLowering Node :=
  lowerRegionTo options region.candidates region

/-! ### Regions inside regions -/

/-- Whether a node has a region of its own as its body. -/
def Form.ownsRegion : Form → Bool
  | .program _ | .function _ _ | .arrow _ _ | .constructor | .getter | .setter
  | .staticBlock => true
  | _ => false

/-- Change the region of a node that has one. -/
def Node.changeRegion (change : Node → ProgramLowering Node) : Node → ProgramLowering Node
  | .mk (.program interpreter) span items => change (.mk (.program interpreter) span items)
  | .mk (.function generator async) span [params, decorators, body, ascription] => do
    return .mk (.function generator async) span [params, decorators, ← change body, ascription]
  | .mk (.arrow async generator) span [params, body, ascription] => do
    return .mk (.arrow async generator) span [params, ← change body, ascription]
  | .mk .constructor span [key, params, body] => do
    return .mk .constructor span [key, params, ← change body]
  | .mk .getter span [key, body] => do
    return .mk .getter span [key, ← change body]
  | .mk .setter span [key, param, body] => do
    return .mk .setter span [key, param, ← change body]
  | .mk .staticBlock span [body] => do
    return .mk .staticBlock span [← change body]
  | node => pure node

mutual

/-- Change every outermost node of a tree that has a region of its own. -/
def Node.changeOwners (change : Node → ProgramLowering Node) : Node → ProgramLowering Node
  | .mk form span parts =>
    if form.ownsRegion then change (.mk form span parts)
    else do return .mk form span (← changeOwnersIn change parts)

/-- Change every outermost node of a list of trees that has a region of its own. -/
def changeOwnersIn (change : Node → ProgramLowering Node) :
    List Node → ProgramLowering (List Node)
  | [] => pure []
  | node :: nodes => do
    return (← node.changeOwners change) :: (← changeOwnersIn change nodes)

end

/-- Lower the region of a node, then the regions in it, down to the given depth. -/
def lowerOwnerTo (options : Options) : (depth : Nat) → Node → ProgramLowering Node
  | 0, node => pure node
  | depth + 1, node => do
    let node ← node.changeRegion (lowerRegion options)
    return .mk node.form node.ownSpan (← changeOwnersIn (lowerOwnerTo options depth) node.parts)

mutual

/-- The number of nodes with a region of their own, and of block-scoped loops, in a
tree. -/
def Node.regionsAndLoops : Node → Nat
  | .mk form span parts =>
    (if form.ownsRegion then 1 else 0) +
      (if form.isLoop && (Node.mk form span parts).isCandidate then 1 else 0) +
      regionsAndLoopsIn parts

/-- The number of nodes with a region of their own, and of block-scoped loops, in a list
of trees. -/
def regionsAndLoopsIn : List Node → Nat
  | [] => 0
  | node :: nodes => node.regionsAndLoops + regionsAndLoopsIn nodes

end

/-! ### The whole program -/

/-- Lower all block-scoped loops of a program with names from a registry that knows
those of the program, and report on each loop. -/
def Node.lowerWith (program : Node) (options : Options) : Lowering (Node × List Report) :=
  (lowerOwnerTo options program.regionsAndLoops program).run []

/-- Lower all block-scoped loops of a program. -/
def Node.lower (program : Node) (options : Options) : Except Refusal Node :=
  ((program.lowerWith options).run.run (.ofTree program)).1.map (·.1)

end LoopLowering
