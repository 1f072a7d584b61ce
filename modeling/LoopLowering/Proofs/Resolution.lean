/-
What a name in a closure refers to.

The analysis of a loop opens one scope for a node and reads all parts of the node in it.
In the language the parts of one node need not see the same names: the parameters of a
function do not see what its body declares, the key of an accessor is evaluated outside
the accessor, and a class sees its own name.  `Node.partScopes` says for each part of a
node which names the node binds there, and `Node.Reaches` follows a name outwards through
these scopes.

The analysis misses a capture only where it has a name bound in a part that does not see
the binding.  Where no such part mentions the name (`Node.KeepsApart`), a loop without
findings has no closure that reaches one of its bindings.  A default value that mentions
the name of a variable of its function's body shows that the condition is needed.
-/
import LoopLowering.Proofs.Replacement

namespace LoopLowering

/-! ### Scopes of the language -/

/-- The names a `using` declaration declares in the block around it. -/
def Node.usingNames : Node → List String
  | .mk (.usingDecl _) _ declarators => bindingNamesOf declarators
  | _ => []

/-- The names a statement list declares for itself, `using` included. -/
def blockNames (stmts : List Node) : List String :=
  lexicalNamesOf stmts ++ stmts.flatMap Node.usingNames

/-- The names one case of a `switch` declares for all of them. -/
def Node.caseNames : Node → List String
  | .mk .switchCase _ [_, .mk .caseBody _ stmts] => blockNames stmts
  | _ => []

/-- The name a class gives itself. -/
def Node.titleNames : Node → List String
  | .mk (.ident _ name _) _ _ => [name]
  | _ => []

/-- The names the head of a loop binds, `using` included. -/
def Node.loopNames (node : Node) : List String :=
  node.headNames ++ if node.form.isLoop then node.parts.flatMap Node.usingNames else []

/-- The parts of a node, each with the names the node binds there. -/
def Node.partScopes : Node → List (Node × List String)
  | .mk .block _ stmts => stmts.map (·, blockNames stmts)
  | .mk .switchStmt _ [value, cases] => [(value, []), (cases, cases.parts.flatMap Node.caseNames)]
  | .mk .catchClause _ (param :: rest) => (param :: rest).map (·, param.bindingNames)
  | .mk (.functionExpr (some name)) _ parts => parts.map (·, [name.text])
  | .mk (.function _ _) _ [params, decorators, body, ascription] =>
    [(params, "arguments" :: params.bindingNames), (decorators, []),
      (body, "arguments" :: params.bindingNames ++ body.bodyNames), (ascription, [])]
  | .mk (.arrow _ _) _ [params, body, ascription] =>
    [(params, params.bindingNames), (body, params.bindingNames ++ body.bodyNames),
      (ascription, [])]
  | .mk .constructor _ [key, params, body] =>
    [(key, []), (params, "arguments" :: params.bindingNames),
      (body, "arguments" :: params.bindingNames ++ body.bodyNames)]
  | .mk .getter _ [key, body] => [(key, []), (body, "arguments" :: body.bodyNames)]
  | .mk .setter _ [key, param, body] =>
    [(key, []), (param, "arguments" :: param.bindingNames),
      (body, "arguments" :: param.bindingNames ++ body.bodyNames)]
  | .mk .staticBlock _ [body] => [(body, body.bodyNames)]
  | .mk (.classDecl _) _ [title, body] => [(title, []), (body, title.titleNames)]
  | .mk .classExpr _ [title, body] => [(title, title.titleNames), (body, title.titleNames)]
  | node => node.parts.map (·, node.loopNames)

/-- Every part of a node has its scope. -/
theorem Node.map_fst_partScopes (node : Node) : node.partScopes.map Prod.fst = node.parts := by
  unfold Node.partScopes
  split <;> simp [Node.parts, Function.comp_def]

theorem Node.mem_parts_of_mem_partScopes {node part : Node} {names : List String}
    (h : (part, names) ∈ node.partScopes) : part ∈ node.parts := by
  rw [← node.map_fst_partScopes]
  exact List.mem_map_of_mem h

/-- Outside closures all parts of a node see what it binds. -/
theorem Node.mem_of_mem_partScopes {node part : Node} {names : List String} {name : String}
    (hclosure : node.form.isClosure = false) (hpart : (part, names) ∈ node.partScopes)
    (hname : name ∈ node.scopeNames) : name ∈ names := by
  have hshared : ∀ (parts : List Node) (shared : List String), name ∈ shared →
      (part, names) ∈ parts.map (·, shared) → name ∈ names := by
    intro parts shared hmem hpart
    obtain ⟨other, -, heq⟩ := List.mem_map.mp hpart
    cases heq
    exact hmem
  unfold Node.scopeNames at hname
  split at hname
  case h_1 => exact hshared _ _ (List.mem_append_left _ hname) hpart
  case h_2 => exact hshared _ _ hname hpart
  case h_3 => exact hshared _ _ hname hpart
  case h_9 =>
    have hmem : name ∈ node.loopNames := List.mem_append_left _ hname
    unfold Node.headNames at hname
    split at hname
    case h_4 => cases hname
    all_goals exact hshared _ _ hmem hpart
  all_goals cases hclosure

/-- A name written in a tree means what it means around the tree.  The flag tells whether
it is written inside a closure of the tree. -/
inductive Node.Reaches (name : String) : Bool → Node → Prop
  | here {role : Role} {optional : Bool} {span : Span} {parts : List Node} :
      Reaches name false (.mk (.ident role name optional) span parts)
  | inside {node part : Node} {names : List String} {crossed : Bool}
      (hpart : (part, names) ∈ node.partScopes) (hname : name ∉ names)
      (h : Reaches name crossed part) : Reaches name (crossed || node.form.isClosure) node

theorem Node.Reaches.through {name : String} {crossed : Bool} {form : Form} {span : Span}
    {parts : List Node} {part : Node} {names : List String} (hclosure : form.isClosure = false)
    (hpart : (part, names) ∈ (Node.mk form span parts).partScopes) (hname : name ∉ names)
    (h : part.Reaches name crossed) : (Node.mk form span parts).Reaches name crossed := by
  simpa [Node.form, hclosure] using Node.Reaches.inside hpart hname h

theorem Node.Reaches.outOf {name : String} {crossed : Bool} {form : Form} {span : Span}
    {parts : List Node} {part : Node} {names : List String} (hclosure : form.isClosure = true)
    (hpart : (part, names) ∈ (Node.mk form span parts).partScopes) (hname : name ∉ names)
    (h : part.Reaches name crossed) : (Node.mk form span parts).Reaches name true := by
  simpa [Node.form, hclosure] using Node.Reaches.inside hpart hname h

/-- A name that is reached is written somewhere. -/
theorem Node.Reaches.mem_names {name : String} {crossed : Bool} {node : Node}
    (h : node.Reaches name crossed) : name ∈ node.names := by
  induction h with
  | here => simp [Node.names, Form.names]
  | @inside node part names crossed hpart hname h ih =>
      obtain ⟨form, span, parts⟩ := node
      have hmem : part ∈ parts := Node.mem_parts_of_mem_partScopes hpart
      rw [Node.names, namesOf_eq_flatMap]
      exact List.mem_append_right _ (List.mem_flatMap.mpr ⟨part, hmem, ih⟩)

/-- No closure of a tree has a part that reaches beyond the closure for a name that the
closure binds elsewhere: no default value of a parameter and no key of an accessor reaches
for a name of the function's body. -/
def Node.KeepsApart (name : String) (node : Node) : Prop :=
  ∀ inner : Node, inner.Within node → inner.form.isClosure = true → name ∈ inner.scopeNames →
    ∀ part names, (part, names) ∈ inner.partScopes → name ∉ names →
      ∀ crossed, ¬ part.Reaches name crossed

theorem Node.keepsApart_mk {name : String} {form : Form} {span : Span} {parts : List Node} :
    (Node.mk form span parts).KeepsApart name ↔
      (form.isClosure = true → name ∈ (Node.mk form span parts).scopeNames →
        ∀ part names, (part, names) ∈ (Node.mk form span parts).partScopes → name ∉ names →
          ∀ crossed, ¬ part.Reaches name crossed) ∧
      ∀ part ∈ parts, part.KeepsApart name := by
  constructor
  · intro h
    exact ⟨h _ .self, fun part hmem inner hinner => h inner (.part hmem hinner)⟩
  · rintro ⟨hown, hparts⟩ inner hinner
    rcases Node.within_mk.mp hinner with rfl | ⟨other, hmem, hother⟩
    · exact hown
    · exact hparts other hmem inner hother

theorem Node.KeepsApart.part {name : String} {form : Form} {span : Span} {parts : List Node}
    {part : Node} (h : (Node.mk form span parts).KeepsApart name) (hmem : part ∈ parts) :
    part.KeepsApart name :=
  (Node.keepsApart_mk.mp h).2 part hmem

/-! ### The scopes of the analysis -/

/-- What the scope that a node opens is a boundary of. -/
def Form.boundary : Form → Capture.Boundary
  | .arrow _ _ => .arrow
  | form => if form.isClosure then .function else .block

/-- Whether a node binds a name in its parts.  A function with its own `this`, or a class, binds
`arguments` whether it says so or not. -/
def Node.Binds (name : String) (node : Node) : Prop :=
  name ∈ node.scopeNames ∨ name = "arguments" ∧ node.form.boundary = .function

theorem Form.boundary_bne_block (form : Form) : (form.boundary != .block) = form.isClosure := by
  unfold Form.boundary
  split
  · rfl
  · cases form.isClosure <;> rfl

namespace Capture

/-- Entering a node keeps the side of the loop the context is on. -/
theorem Context.inBody_enter (ctx : Context) (node : Node) :
    (ctx.enter node).inBody = ctx.inBody := by
  unfold Context.enter
  split
  case h_4 => unfold Context.enterOver; split <;> rfl
  case h_5 => unfold Context.enterOver; split <;> rfl
  case h_11 => split <;> rfl
  all_goals rfl

/-- Where the names that a node of the form binds come from. -/
def Context.originOf (ctx : Context) : Form → Origin
  | .block => ctx.blockOrigin
  | _ => .untracked

/-- A loop over keys or values opens the scope of its head, or its head declares no name. -/
theorem Context.frames_enterOver (ctx : Context) (head : Node) :
    (ctx.enterOver head).frames =
        ⟨.block, head.blockScopedNames, .untracked⟩ :: ctx.frames ∨
      (ctx.enterOver head).frames = ctx.frames ∧ head.blockScopedNames = [] := by
  unfold Context.enterOver
  split
  · next hnone => exact Or.inr ⟨rfl, hnone⟩
  · exact Or.inl rfl

/-- A closure other than an arrow function is a function, and what it binds is its own. -/
theorem Context.frame_of_isClosure (ctx : Context) {form : Form} (hclosure : form.isClosure = true)
    (harrow : ∀ async generator, form ≠ .arrow async generator) :
    form.boundary = .function ∧ ctx.originOf form = .untracked := by
  constructor
  · unfold Form.boundary
    split
    · exact (harrow _ _ rfl).elim
    · rw [if_pos hclosure]
  · unfold Context.originOf
    split
    · cases hclosure
    · rfl

/-- A node opens the scope of its names, or binds nothing. -/
theorem Context.frames_enter (ctx : Context) (node : Node) :
    (ctx.enter node).frames =
        ⟨node.form.boundary, node.scopeNames, ctx.originOf node.form⟩ :: ctx.frames ∨
      (ctx.enter node).frames = ctx.frames ∧ node.scopeNames = [] ∧
        node.form.isClosure = false := by
  unfold Context.enter
  split
  · exact Or.inl rfl
  · exact Or.inl rfl
  · next span parts hhead =>
    refine Or.inr ⟨rfl, ?_, rfl⟩
    show (Node.mk .forStmt span parts).headNames = []
    unfold Node.headNames
    split
    · next heq =>
      cases heq
      unfold Node.blockScopedNames
      split
      · exact (hhead _ _ _ _ _ rfl).elim
      · rfl
    all_goals simp_all
  · next head _ => exact (ctx.frames_enterOver head).imp id fun h => ⟨h.1, h.2, rfl⟩
  · next head _ => exact (ctx.frames_enterOver head).imp id fun h => ⟨h.1, h.2, rfl⟩
  · exact Or.inr ⟨rfl, rfl, rfl⟩
  · exact Or.inr ⟨rfl, rfl, rfl⟩
  · exact Or.inl rfl
  · exact Or.inl rfl
  · exact Or.inl rfl
  · next form span parts hblock hfor hfor' hforIn hforOf hwhile hdo hcatch hfunction harrow =>
    split
    · next hclosure =>
      left
      obtain ⟨hboundary, horigin⟩ := ctx.frame_of_isClosure hclosure harrow
      show _ = (⟨form.boundary, _, ctx.originOf form⟩ : Frame) :: _
      rw [hboundary, horigin]
      rfl
    · next hclosure =>
      refine Or.inr ⟨rfl, ?_, Bool.not_eq_true _ ▸ hclosure⟩
      unfold Node.scopeNames
      split
      case h_1 heq => cases heq; exact (hblock rfl).elim
      case h_2 heq => cases heq; exact (hcatch rfl).elim
      case h_3 heq => cases heq; exact (hfunction _ rfl).elim
      case h_9 =>
        unfold Node.headNames
        split
        case h_1 heq => cases heq; exact (hfor' rfl).elim
        case h_2 heq => cases heq; exact (hforIn _ _ rfl rfl).elim
        case h_3 heq => cases heq; exact (hforOf _ _ _ rfl rfl).elim
        case h_4 => rfl
      -- What is left are closures.
      all_goals
        next heq =>
          cases heq
          exact (hclosure rfl).elim

theorem Context.inClosure_enter (ctx : Context) (node : Node) :
    (ctx.enter node).inClosure = (ctx.inClosure || node.form.isClosure) := by
  unfold Context.inClosure
  rcases ctx.frames_enter node with hframes | ⟨hframes, -, hclosure⟩
  · rw [hframes, List.any_cons, Form.boundary_bne_block, Bool.or_comm]
  · rw [hframes, hclosure, Bool.or_false]

/-- In the parts of a node a name the node does not bind means what it means around the
node, with one more closure in between if the node is one. -/
theorem Context.resolveFrom_enter {name : String} {crossed : Bool} (ctx : Context) {node : Node}
    (h : ¬ node.Binds name) :
    resolveFrom name crossed (ctx.enter node).frames =
      resolveFrom name (crossed || node.form.isClosure) ctx.frames := by
  rcases ctx.frames_enter node with hframes | ⟨hframes, -, hclosure⟩
  · have hname : name ∉ node.scopeNames := fun hmem => h (Or.inl hmem)
    have harguments : ¬ (name = "arguments" ∧ node.form.boundary = .function) :=
      fun hown => h (Or.inr hown)
    rw [hframes, resolveFrom, if_neg hname, if_neg harguments, Form.boundary_bne_block]
  · rw [hframes, hclosure, Bool.or_false]

/-- If a name of a tree reaches around it and means a tracked binding there, with a closure
on the way, the analysis finds the capture. -/
theorem captured_mem_findings {name : String} {origin : Origin} {crossed : Bool} {node : Node}
    (hreaches : node.Reaches name crossed) (harguments : name ≠ "arguments")
    (hapart : node.KeepsApart name) {ctx : Context} (hbody : ctx.inBody = true)
    (hresolve : Context.resolveFrom name crossed ctx.frames = some (origin, true)) :
    Finding.captured origin ∈ findings ctx node := by
  induction hreaches generalizing ctx with
  | here =>
      rw [findings, Context.own]
      refine List.mem_append_left _ ?_
      have hmeant : ctx.resolve name = some (origin, true) := hresolve
      simp [Context.reference, hmeant, hbody]
  | @inside node part names crossed hpart hname h ih =>
      obtain ⟨form, span, parts⟩ := node
      have hmem : part ∈ parts := Node.mem_parts_of_mem_partScopes hpart
      have hfree : name ∉ (Node.mk form span parts).scopeNames := by
        intro hbound
        cases hclosure : (Node.mk form span parts).form.isClosure with
        | true => exact hapart _ .self hclosure hbound part names hpart hname _ h
        | false => exact hname (Node.mem_of_mem_partScopes hclosure hpart hbound)
      have hunbound : ¬ (Node.mk form span parts).Binds name :=
        fun hbinds => hbinds.elim hfree fun hown => harguments hown.1
      have hpart := ih (hapart.part hmem) ((ctx.inBody_enter _).trans hbody)
        ((ctx.resolveFrom_enter hunbound).trans hresolve)
      rw [findings, findingsIn_eq_flatMap]
      exact List.mem_append_right _ (List.mem_flatMap.mpr ⟨part, hmem, hpart⟩)

end Capture

/-! ### Nested loops -/

/-- Only `let` and `const` declarations declare names for a block. -/
theorem Node.blockScopedNames_eq_nil {node : Node} (h : node.isLexicalDecl = false) :
    node.blockScopedNames = [] := by
  unfold Node.blockScopedNames
  split
  · cases h
  · rfl

/-- A loop is block-scoped if its head is. -/
theorem Node.isLexicalDecl_head {form : Form} {span : Span} {head : Node} {rest : List Node}
    (hwf : (Node.mk form span (head :: rest)).isWellFormed = true)
    (hform : form = .forStmt ∨ form = .forInStmt ∨ ∃ isAwait, form = .forOfStmt isAwait) :
    head.isLexicalDecl = (Node.mk form span (head :: rest)).isBlockLoop := by
  obtain rfl | rfl | ⟨isAwait, rfl⟩ := hform
  · have hlength := Node.length_parts hwf (by simp) rfl
    match rest, hlength with
    | [_, _, _], _ => rfl
  · have hlength := Node.length_parts hwf (by simp) rfl
    match rest, hlength with
    | [_, _], _ => rfl
  · have hlength := Node.length_parts hwf (by simp) rfl
    match rest, hlength with
    | [_, _], _ => rfl

/-- Whether the head of a loop over keys or values declares a name, if it is a `let` or `const`. -/
def Node.headBinds : Node → Bool
  | .mk .forInStmt _ (head :: _) => !head.isLexicalDecl || !head.blockScopedNames.isEmpty
  | .mk (.forOfStmt _) _ (head :: _) => !head.isLexicalDecl || !head.blockScopedNames.isEmpty
  | _ => true

/-- Whether the analysis takes a node for a loop with bindings of its own. -/
def Node.isNestedLoop (node : Node) : Bool := node.isBlockLoop && node.headBinds

theorem Node.isLoop_of_isBlockLoop {node : Node} (h : node.isBlockLoop = true) :
    node.form.isLoop = true := by
  unfold Node.isBlockLoop at h
  split at h
  case h_4 => cases h
  all_goals rfl

namespace Capture

/-- A loop over keys or values is a nested loop if its head declares a name. -/
theorem Context.loops_enterOver (ctx : Context) {form : Form} {span : Span} {head : Node}
    {rest : List Node} (hwf : (Node.mk form span (head :: rest)).isWellFormed = true)
    (hform : form = .forInStmt ∨ ∃ isAwait, form = .forOfStmt isAwait) :
    (ctx.enterOver head).inNestedLoop =
        (ctx.inNestedLoop || (Node.mk form span (head :: rest)).isNestedLoop) ∧
      (ctx.enterOver head).inInnerLoop =
        (ctx.inInnerLoop || !(Node.mk form span (head :: rest)).isNestedLoop) := by
  have hnested : (Node.mk form span (head :: rest)).isNestedLoop =
      (head.isLexicalDecl && (!head.isLexicalDecl || !head.blockScopedNames.isEmpty)) := by
    unfold Node.isNestedLoop
    rw [← Node.isLexicalDecl_head hwf (Or.inr hform)]
    obtain rfl | ⟨isAwait, rfl⟩ := hform
    · rfl
    · rfl
  rw [hnested]
  unfold Context.enterOver
  split
  · next hnone => simp [hnone]
  · next hsome =>
    have hlexical : head.isLexicalDecl = true := by
      by_contra hnot
      exact hsome (Node.blockScopedNames_eq_nil (Bool.not_eq_true _ ▸ hnot))
    have hnames : head.blockScopedNames ≠ [] := hsome
    simp [Context.push, hlexical, hnames]

/-- Every loop on the way is a nested loop or an inner one. -/
theorem Context.loops_enter (ctx : Context) {node : Node} (hwf : node.isWellFormed = true) :
    (ctx.enter node).inNestedLoop = (ctx.inNestedLoop || node.isNestedLoop) ∧
      (ctx.enter node).inInnerLoop =
        (ctx.inInnerLoop || (node.form.isLoop && !node.isNestedLoop)) := by
  unfold Context.enter
  split
  case h_2 =>
    have hblock := (Node.isLexicalDecl_head hwf (Or.inl rfl)).symm
    simp [Context.push, Node.isNestedLoop, hblock, Node.headBinds, Node.isLexicalDecl,
      Node.form, Form.isLexicalDecl]
  case h_3 span parts hhead =>
    have hblock : (Node.mk .forStmt span parts).isBlockLoop = false := by
      cases parts with
      | nil => rfl
      | cons head rest =>
          rw [← Node.isLexicalDecl_head hwf (Or.inl rfl)]
          by_contra hlexical
          obtain ⟨_, _, _, _, rfl⟩ := Node.isLexicalDecl_iff.mp (Bool.not_eq_false _ ▸ hlexical)
          exact hhead _ _ _ _ _ rfl
    simp [Node.isNestedLoop, hblock, Node.form, Form.isLoop]
  case h_4 => exact ctx.loops_enterOver hwf (Or.inl rfl)
  case h_5 => exact ctx.loops_enterOver hwf (Or.inr ⟨_, rfl⟩)
  case h_11 form span parts hblock hfor hfor' hforIn hforOf hwhile hdo hcatch hfunction harrow =>
    -- Every form of loop has a case above, and loops over keys or values have a head.
    have hform : form.isLoop = false := by
      unfold Form.isLoop
      split
      case h_1 => exact (hfor' rfl).elim
      case h_2 =>
        cases parts with
        | nil => cases Node.length_parts hwf (by simp) rfl
        | cons head rest => exact (hforIn _ _ rfl rfl).elim
      case h_3 =>
        cases parts with
        | nil => cases Node.length_parts hwf (by simp) rfl
        | cons head rest => exact (hforOf _ _ _ rfl rfl).elim
      case h_4 => exact (hwhile rfl).elim
      case h_5 => exact (hdo rfl).elim
      case h_6 => rfl
    have hloop : (Node.mk form span parts).isBlockLoop = false := by
      by_contra hloop
      have hother := Node.isLoop_of_isBlockLoop (Bool.not_eq_false _ ▸ hloop)
      exact Bool.false_ne_true (hform.symm.trans hother)
    have hnested : (Node.mk form span parts).isNestedLoop = false := by
      rw [Node.isNestedLoop, hloop, Bool.false_and]
    rw [hnested, Node.form, hform]
    split <;> simp [Context.push]
  all_goals simp [Context.push, Node.isNestedLoop, Node.isBlockLoop, Node.form, Form.isLoop]

end Capture

/-! ### Blocks of one iteration -/

/-- A tree has a block with these statements outside closures and block-scoped loops. -/
inductive Node.HasBlock (stmts : List Node) : Node → Prop
  | here {span : Span} : HasBlock stmts (.block span stmts)
  | inside {form : Form} {span : Span} {parts : List Node} {part : Node}
      (hclosure : form.isClosure = false)
      (hloop : (Node.mk form span parts).isBlockLoop = false) (hmem : part ∈ parts)
      (h : HasBlock stmts part) : HasBlock stmts (.mk form span parts)

namespace Capture

/-- The context is in the body of the loop, outside closures and block-scoped loops. -/
structure Context.InIteration (ctx : Context) : Prop where
  inBody : ctx.inBody = true
  notNested : ctx.inNestedLoop = false
  notInClosure : ctx.inClosure = false

/-- A block of one iteration is tracked. -/
theorem Context.InIteration.blockOrigin {ctx : Context} (h : ctx.InIteration) :
    ctx.blockOrigin = .iteration ∨ ctx.blockOrigin = .innerLoop := by
  unfold Context.blockOrigin
  simp only [h.inBody, h.notNested, h.notInClosure, Bool.not_true, Bool.or_self, Bool.false_eq_true,
    ↓reduceIte]
  split
  · exact Or.inr rfl
  · exact Or.inl rfl

/-- A node that is neither closure nor block-scoped loop stays in the iteration. -/
theorem Context.InIteration.enter {ctx : Context} (h : ctx.InIteration) {node : Node}
    (hwf : node.isWellFormed = true) (hclosure : node.form.isClosure = false)
    (hloop : node.isBlockLoop = false) : (ctx.enter node).InIteration where
  inBody := (ctx.inBody_enter node).trans h.inBody
  notNested := by
    rw [(ctx.loops_enter hwf).1, h.notNested, Node.isNestedLoop, hloop, Bool.false_and,
      Bool.or_false]
  notInClosure := by
    rw [ctx.inClosure_enter, h.notInClosure, hclosure, Bool.or_false]

/-- If a name reaches from a closure to a block of the iteration that binds it, the analysis
finds the capture. -/
theorem captured_mem_findings_of_hasBlock {name : String} {stmts : List Node} {node stmt : Node}
    (hblock : node.HasBlock stmts) (hmem : stmt ∈ stmts) (hname : name ∈ lexicalNamesOf stmts)
    (hreaches : stmt.Reaches name true) (harguments : name ≠ "arguments")
    (hapart : node.KeepsApart name) (hwf : node.isWellFormed = true) {ctx : Context}
    (hctx : ctx.InIteration) :
    Finding.captured .iteration ∈ findings ctx node ∨
      Finding.captured .innerLoop ∈ findings ctx node := by
  induction hblock generalizing ctx with
  | @here span =>
      have hfound : Finding.captured ctx.blockOrigin ∈ findings ctx (.block span stmts) := by
        rw [findings, findingsIn_eq_flatMap]
        refine List.mem_append_right _ (List.mem_flatMap.mpr ⟨stmt, hmem, ?_⟩)
        refine captured_mem_findings hreaches harguments (hapart.part hmem)
          ((ctx.inBody_enter _).trans hctx.inBody) ?_
        simp [Context.enter, Context.push, Context.resolveFrom, Node.scopeNames, hname]
      rcases hctx.blockOrigin with horigin | horigin
      · exact Or.inl (horigin ▸ hfound)
      · exact Or.inr (horigin ▸ hfound)
  | @inside form span parts part hclosure hloop hpart h ih =>
      have hinner := ih (hapart.part hpart) (Node.isWellFormed_part hwf hpart)
        (hctx.enter hwf hclosure hloop)
      rw [findings, findingsIn_eq_flatMap]
      exact hinner.imp
        (fun hfound => List.mem_append_right _ (List.mem_flatMap.mpr ⟨part, hpart, hfound⟩))
        (fun hfound => List.mem_append_right _ (List.mem_flatMap.mpr ⟨part, hpart, hfound⟩))

end Capture

/-! ### Loops without findings -/

/-- If the analysis of a loop finds no captured binding, then no name in a closure of the
body refers to a loop variable, or to what a block of the body declares outside closures and
block-scoped loops, provided no part of a function mentions the name without seeing the
function's own binding of it. -/
theorem Loop.closures_reach_no_binding {stmt : Node} {loop : Loop} (hstmt : stmt.IsStmt)
    (hloop : Loop.ofNode? stmt = some loop) (hvariable : loop.capture.variableCaptured = false)
    (hbody : loop.capture.bodyBindingCaptured = false)
    (hinner : loop.capture.innerLoopBindingCaptured = false) {name : String}
    (harguments : name ≠ "arguments") (hapart : loop.body.KeepsApart name) :
    (name ∈ loop.decl.names → ¬ loop.body.Reaches name true) ∧
      ∀ stmts, loop.body.HasBlock stmts → name ∈ lexicalNamesOf stmts →
        ∀ inner ∈ stmts, ¬ inner.Reaches name true := by
  have hwf : loop.body.isWellFormed = true := (Loop.wellFormed_of_ofNode? hloop hstmt.2).body.2
  let ctx : Capture.Context := ⟨[⟨.block, loop.decl.names, .loopVariable⟩], true, false, false⟩
  have hmissing : ∀ origin, Capture.Finding.captured origin ∉ loop.findings →
      Capture.Finding.captured origin ∉ Capture.findings ctx loop.body :=
    fun origin h hmem => h (List.mem_append_right _ hmem)
  refine ⟨fun hname hreaches => ?_, fun stmts hblock hname inner hmem hreaches => ?_⟩
  · refine hmissing .loopVariable (of_decide_eq_false hvariable) ?_
    refine Capture.captured_mem_findings hreaches harguments hapart rfl ?_
    simp [ctx, Capture.Context.resolveFrom, hname]
  · have hctx : ctx.InIteration := ⟨rfl, rfl, rfl⟩
    have hfound := Capture.captured_mem_findings_of_hasBlock hblock hmem hname hreaches harguments
      hapart hwf hctx
    exact hfound.elim (hmissing _ (of_decide_eq_false hbody))
      (hmissing _ (of_decide_eq_false hinner))

/-! ### A default value -/

/-- The parameters `(a = name)`. -/
def defaultedParams (name : String) : Node :=
  let at0 := Span.generated
  .list [.mk .parameter at0
    [.list [], .mk .assignPat at0 [.binding "a" false at0 .absent, .use name at0]]]

/-- The function `function (a = name) { var i = 1; return a + i; }`. -/
def defaultedFunction (name : String) : Node :=
  let at0 := Span.generated
  .mk (.functionExpr none) at0
    [.mk (.function false false) at0
      [defaultedParams name,
       .list [],
       .block at0
        [.varStmt at0 [("i", .mk (.number 1 none) at0 [])],
         .returnStmt (.mk (.binary "+") at0 [.use "a" at0, .use "i" at0]) at0],
       .absent]]

/-- The loop `for (let i = 0; i < 2; i++) { fns.push(function (a = name) { ... }); }`. -/
def defaultedLoop (name : String) : Loop :=
  let at0 := Span.generated
  { labels := []
    span := at0
    decl := ⟨.lexical false, false, at0,
      [.declarator false at0 (.binding "i" false at0 .absent) (.mk (.number 0 none) at0 [])]⟩
    head := .plain (.mk (.binary "<") at0 [.use "i" at0, .mk (.number 2 none) at0 []])
      (.mk (.update "++" false) at0 [.use "i" at0])
    body := .block at0
      [.exprStmt (.mk .call at0 [.memberOf (.use "fns" at0) "push" at0,
        .list [.mk (.arg none) at0 [defaultedFunction name]]])] }

/-- Without a default value that mentions it, the loop variable is no one else's. -/
theorem defaultedLoop_keepsApart : (defaultedLoop "j").body.KeepsApart "i" := by
  simp only [defaultedLoop, defaultedFunction, defaultedParams, Node.keepsApart_mk, Node.exprStmt,
    Node.memberOf, Node.list, Node.varStmt, Node.returnStmt, Node.absent, Form.isClosure,
    List.forall_mem_cons, List.not_mem_nil, false_implies, implies_true, and_true, true_and,
    Bool.false_eq_true, forall_const, List.map_cons, List.map_nil]
  intro _ part names hpart hfree crossed hreaches
  simp only [Node.partScopes, List.mem_cons, List.not_mem_nil, or_false, Prod.mk.injEq] at hpart
  -- Only the body of the function mentions the name, and it sees the function's own.
  obtain ⟨rfl, -⟩ | ⟨rfl, -⟩ | ⟨-, rfl⟩ | ⟨rfl, -⟩ := hpart
  · exact absurd hreaches.mem_names (by decide +kernel)
  · exact absurd hreaches.mem_names (by decide +kernel)
  · exact hfree (by decide +kernel)
  · exact absurd hreaches.mem_names (by decide +kernel)

/-- The names of such a loop stay its own. -/
theorem defaultedLoop_reaches_no_binding :
    (defaultedLoop "j").toNode.IsStmt ∧ "i" ∈ (defaultedLoop "j").decl.names ∧
      (defaultedLoop "j").capture.variableCaptured = false ∧
      ¬ (defaultedLoop "j").body.Reaches "i" true := by
  have hstmt : (defaultedLoop "j").toNode.IsStmt := by decide +kernel
  have hvariable : (defaultedLoop "j").capture.variableCaptured = false := by decide +kernel
  have hname : "i" ∈ (defaultedLoop "j").decl.names := by decide +kernel
  refine ⟨hstmt, hname, hvariable, ?_⟩
  exact (Loop.closures_reach_no_binding hstmt rfl hvariable (by decide +kernel) (by decide +kernel)
    (by decide) defaultedLoop_keepsApart).1 hname

/-- The default value `i` refers to the loop variable, which the analysis takes for the
variable of the function. -/
theorem defaultedLoop_capture_missed :
    (defaultedLoop "i").toNode.IsStmt ∧ Loop.ofNode? (defaultedLoop "i").toNode =
      some (defaultedLoop "i") ∧
      (defaultedLoop "i").capture.variableCaptured = false ∧
      (defaultedLoop "i").capture.bodyBindingCaptured = false ∧
      (defaultedLoop "i").capture.innerLoopBindingCaptured = false ∧
      "i" ∈ (defaultedLoop "i").decl.names ∧ (defaultedLoop "i").body.Reaches "i" true := by
  refine ⟨by decide +kernel, rfl, by decide +kernel, by decide +kernel, by decide +kernel,
    by decide +kernel, ?_⟩
  have hparams : (defaultedParams "i").Reaches "i" false :=
    .through rfl (List.mem_singleton_self _) (by decide +kernel) <|
      .through rfl (List.mem_cons_of_mem _ (List.mem_singleton_self _)) (by decide +kernel) <|
      .through rfl (List.mem_cons_of_mem _ (List.mem_singleton_self _)) (by decide +kernel) .here
  have hfunction : (defaultedFunction "i").Reaches "i" true :=
    .through rfl (List.mem_singleton_self _) (by decide +kernel) <|
      .outOf rfl List.mem_cons_self (by decide +kernel) hparams
  exact .through rfl (List.mem_singleton_self _) (by decide +kernel) <|
    .through rfl (List.mem_singleton_self _) (by decide +kernel) <|
    .through rfl (List.mem_cons_of_mem _ (List.mem_singleton_self _)) (by decide +kernel) <|
    .through rfl (List.mem_singleton_self _) (by decide +kernel) <|
    .through rfl (List.mem_singleton_self _) (by decide +kernel) hfunction

end LoopLowering
