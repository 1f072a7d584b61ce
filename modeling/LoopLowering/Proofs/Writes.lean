/-
What the analysis of a loop finds written.

A statement or an expression that assigns has a target: the left side of an assignment, what
an update steps, what a loop over keys or values assigns in each round.  A target names variables,
directly or inside patterns and parentheses, and a variable is a loop variable where nothing between
the body of the loop and the name binds it again.  The reassigned variables of a loop are its
variables that some target of the body names, wherever in the body it stands.

One way to name a variable is overlooked.  A target can also stand in a type assertion, as in
`i!++` or `(i as any) = 1`, which assigns the variable like the bare name does.  The analysis does
not look into assertions, and such a write is not found.
-/
import LoopLowering.Proofs.Occurrences

namespace LoopLowering

/-! ### Nodes and the nodes around them -/

/-- The node stands in the tree, and these are the nodes around it, outermost first. -/
inductive Node.LiesIn (node : Node) : List Node → Node → Prop
  | self : LiesIn node [] node
  | part {form : Form} {span : Span} {parts path : List Node} {part : Node}
      (hpart : part ∈ parts) (h : LiesIn node path part) :
      LiesIn node (.mk form span parts :: path) (.mk form span parts)

namespace Capture

/-- What a tree says, its nodes say at the end of their paths. -/
theorem mem_findings_iff_own {finding : Finding} {ctx : Context} {tree : Node} :
    finding ∈ findings ctx tree ↔
      ∃ path node, node.LiesIn path tree ∧ finding ∈ (ctx.along path).own node := by
  constructor
  · intro h
    induction tree using Node.inductionOn generalizing ctx with
    | step form span parts ih =>
        rw [findings, findingsIn_eq_flatMap] at h
        rcases List.mem_append.mp h with hown | hparts
        · exact ⟨[], _, .self, hown⟩
        · obtain ⟨part, hmem, h⟩ := List.mem_flatMap.mp hparts
          obtain ⟨path, node, hlies, hown⟩ := ih part hmem h
          exact ⟨_ :: path, node, .part hmem hlies, hown⟩
  · rintro ⟨path, node, hlies, hown⟩
    induction hlies generalizing ctx with
    | self =>
        obtain ⟨form, span, parts⟩ := node
        rw [findings]
        exact List.mem_append_left _ hown
    | part hmem _ ih =>
        rw [findings, findingsIn_eq_flatMap]
        exact List.mem_append_right _ (List.mem_flatMap.mpr ⟨_, hmem, ih hown⟩)

end Capture

/-! ### Targets -/

/-- What a node assigns: the left side of an assignment, the operand of an update, the head of a
loop over keys or values. -/
def Node.target? : Node → Option Node
  | .mk (.assign _) _ (target :: _) => some target
  | .mk (.update _ _) _ (target :: _) => some target
  | .mk .forInStmt _ (target :: _) => some target
  | .mk (.forOfStmt _) _ (target :: _) => some target
  | _ => none

/-- Whether a node of this form says of an expression which type it has, and nothing else. -/
def Form.isAssertion : Form → Bool
  | .typeAs | .typeAssertion | .nonNull => true
  | _ => false

/-- The parts of a target that are targets again.  Default values and keys are not. -/
def Node.targetParts : Node → List Node
  | .mk .list _ items => items
  | .mk (.arrayPat _) _ [elements, _] => [elements]
  | .mk (.objectPat _) _ [properties, _] => [properties]
  | .mk (.rest _) _ [pattern, _] => [pattern]
  | .mk .assignPat _ [pattern, _] => [pattern]
  | .mk .keyValuePat _ [_, pattern] => [pattern]
  | .mk .assignPatProp _ [key, _] => [key]
  | .mk .paren _ [inner] => [inner]
  | .mk .typeAs _ [inner, _] => [inner]
  | .mk .typeAssertion _ [inner, _] => [inner]
  | .mk .nonNull _ [inner] => [inner]
  | _ => []

/-- The target names the variable, and these are the nodes of the target around the name. -/
inductive Node.Targets (name : String) : List Node → Node → Prop
  | here {role : Role} {optional : Bool} {span : Span} {parts : List Node}
      (hrole : role = .bind ∨ role = .use) :
      Targets name [] (.mk (.ident role name optional) span parts)
  | inside {target part : Node} {chain : List Node} (hpart : part ∈ target.targetParts)
      (h : Targets name chain part) : Targets name (target :: chain) target

/-- The tree assigns the variable `name`: the node at the end of the path does, and in its target
the nodes of the chain are around the name. -/
def Node.Writes (tree : Node) (name : String) (path : List Node) (writer : Node)
    (chain : List Node) : Prop :=
  writer.LiesIn path tree ∧ ∃ target, writer.target? = some target ∧ target.Targets name chain

/-- The nodes around a name in a target bind nothing. -/
theorem Node.not_binds_of_targetParts {name : String} {target part : Node}
    (h : part ∈ target.targetParts) : ¬ target.Binds name := by
  unfold Node.targetParts at h
  split at h
  case h_12 => cases h
  all_goals
    rintro (hname | ⟨-, hboundary⟩)
    · cases hname
    · cases hboundary

theorem Node.Targets.unboundOn {name : String} {chain : List Node} {target : Node}
    (h : target.Targets name chain) : UnboundOn name chain := by
  induction h with
  | here => exact fun node hmem => absurd hmem List.not_mem_nil
  | inside hpart _ ih => exact List.forall_mem_cons.mpr ⟨Node.not_binds_of_targetParts hpart, ih⟩

/-- A declaration is no target. -/
theorem Node.Targets.blockScopedNames {name : String} {chain : List Node} {target : Node}
    (h : target.Targets name chain) : target.blockScopedNames = [] := by
  cases h with
  | here => rfl
  | inside hpart =>
      unfold Node.targetParts at hpart
      split at hpart
      case h_12 => cases hpart
      all_goals rfl

/-- A node that assigns to a target binds nothing. -/
theorem Node.not_binds_of_target? {name other : String} {writer target : Node} {chain : List Node}
    (hwriter : writer.target? = some target) (htarget : target.Targets name chain) :
    ¬ writer.Binds other := by
  have hhead := htarget.blockScopedNames
  unfold Node.target? at hwriter
  split at hwriter
  case h_5 => cases hwriter
  all_goals
    cases hwriter
    rintro (hname | ⟨-, hboundary⟩)
    · simp [Node.scopeNames, Node.headNames, hhead] at hname
    · cases hboundary

/-- The names the analysis reads off a target are those that stand in no assertion. -/
theorem Node.mem_assignedNames {name : String} {target : Node} :
    name ∈ target.assignedNames ↔
      ∃ chain, target.Targets name chain ∧ ∀ node ∈ chain, node.form.isAssertion = false := by
  constructor
  · intro h
    induction target using Node.inductionOn with
    | step form span parts ih =>
        -- A name of a part that is looked into stands in no assertion if this node is none.
        have inside : ∀ part ∈ parts, part ∈ (Node.mk form span parts).targetParts →
            form.isAssertion = false → name ∈ part.assignedNames →
            ∃ chain, (Node.mk form span parts).Targets name chain ∧
              ∀ node ∈ chain, node.form.isAssertion = false := by
          intro part hmem hpart hform hname
          obtain ⟨chain, htargets, hchain⟩ := ih part hmem hname
          exact ⟨_ :: chain, .inside hpart htargets, List.forall_mem_cons.mpr ⟨hform, hchain⟩⟩
        unfold Node.assignedNames at h
        split at h
        case h_1 heq =>
          cases heq
          exact ⟨[], List.mem_singleton.mp h ▸ .here (Or.inl rfl), by simp⟩
        case h_2 heq =>
          cases heq
          exact ⟨[], List.mem_singleton.mp h ▸ .here (Or.inr rfl), by simp⟩
        case h_4 heq =>
          cases heq
          rw [assignedNamesOf_eq_flatMap] at h
          obtain ⟨part, hmem, hname⟩ := List.mem_flatMap.mp h
          exact inside part hmem hmem rfl hname
        case h_11 => cases h
        all_goals
          rename_i heq
          cases heq
          exact inside _ (by simp) (by simp [Node.targetParts]) rfl h
  · rintro ⟨chain, htargets, hchain⟩
    induction htargets with
    | here hrole =>
        rcases hrole with rfl | rfl
        · exact List.mem_singleton.mpr rfl
        · exact List.mem_singleton.mpr rfl
    | inside hpart _ ih =>
        obtain ⟨hassertion, hchain⟩ := List.forall_mem_cons.mp hchain
        have hname := ih hchain
        unfold Node.targetParts at hpart
        split at hpart
        case h_1 =>
          rw [Node.assignedNames, assignedNamesOf_eq_flatMap]
          exact List.mem_flatMap.mpr ⟨_, hpart, hname⟩
        case h_12 => cases hpart
        all_goals
          cases List.mem_singleton.mp hpart
          first
            | exact hname
            | cases hassertion

/-! ### The loop variables the body assigns -/

namespace Capture

/-- The context resolves the name to the head of the loop. -/
def Context.ToHead (ctx : Context) (name : String) : Prop :=
  ∃ crossed, ctx.resolve name = some (.loopVariable, crossed)

@[simp] theorem Context.reassigned_mem_write {ctx : Context} {name other : String} :
    Finding.reassigned name ∈ ctx.write other ↔
      other = name ∧ ctx.inBody = true ∧ ctx.ToHead name := by
  unfold Context.write Context.ToHead
  split
  · next hbody => simp_all
  · next hbody =>
    split
    · next crossed hresolve =>
      rw [List.mem_singleton, Finding.reassigned.injEq]
      refine ⟨?_, fun h => h.1.symm⟩
      rintro rfl
      exact ⟨rfl, by simpa using hbody, crossed, hresolve⟩
    · next hother =>
      refine ⟨fun h => absurd h List.not_mem_nil, ?_⟩
      rintro ⟨rfl, -, crossed, hresolve⟩
      exact absurd hresolve (hother crossed)

@[simp] theorem Context.reassigned_mem_writes {ctx : Context} {name : String}
    {names : List String} :
    Finding.reassigned name ∈ ctx.writes names ↔
      name ∈ names ∧ ctx.inBody = true ∧ ctx.ToHead name := by
  rw [Context.writes, List.mem_flatMap]
  simp only [reassigned_mem_write]
  exact ⟨fun ⟨_, hmem, heq, h⟩ => ⟨heq ▸ hmem, h⟩, fun ⟨hmem, h⟩ => ⟨name, hmem, rfl, h⟩⟩

@[simp] theorem Context.reassigned_notMem_reference {ctx : Context} {name other : String} :
    Finding.reassigned name ∉ ctx.reference other := by
  unfold Context.reference
  split
  · split <;> simp
  · simp
  · split <;> simp

@[simp] theorem Context.reassigned_notMem_declarations {ctx : Context} {name : String}
    {names : List String} : Finding.reassigned name ∉ ctx.declarations names := by
  unfold Context.declarations
  split <;> simp

@[simp] theorem Context.reassigned_notMem_suspension {ctx : Context} {name : String}
    {keyword : Keyword} {span : Span} : Finding.reassigned name ∉ ctx.suspension keyword span := by
  unfold Context.suspension
  split <;> simp

@[simp] theorem Context.reassigned_notMem_functionBound {ctx : Context} {name : String}
    {keyword : Keyword} {span : Span} :
    Finding.reassigned name ∉ ctx.functionBound keyword span := by
  unfold Context.functionBound
  split <;> simp

@[simp] theorem Context.reassigned_ne_varDeclarator {name : String} {span : Span}
    {declarator : Node} : varDeclarator span declarator ≠ Finding.reassigned name := by
  unfold varDeclarator
  split <;> simp

/-- A node shows that a loop variable is reassigned if its target has the name. -/
theorem Context.reassigned_mem_own {ctx : Context} {name : String} {node : Node} :
    Finding.reassigned name ∈ ctx.own node ↔
      (∃ target, node.target? = some target ∧ name ∈ target.assignedNames) ∧ ctx.inBody = true ∧
        ctx.ToHead name := by
  unfold Context.own
  split
  case h_2 => split <;> simp [Node.target?]
  case h_5 => split <;> simp [Node.target?]
  case h_8 isAwait _ _ _ => cases isAwait <;> simp [Node.target?]
  case h_13 hassign hupdate _ _ hforIn hforOf _ _ _ _ =>
    have hnone : node.target? = none := by
      unfold Node.target?
      split
      · exact (hassign _ _ _ _ rfl).elim
      · exact (hupdate _ _ _ _ _ rfl).elim
      · exact (hforIn _ _ _ rfl).elim
      · exact (hforOf _ _ _ _ rfl).elim
      · rfl
    simp [hnone]
  all_goals simp [Node.target?]

end Capture

section

variable {loop : Loop} {name : String} {path : List Node}

/-- A name of the body refers to the head of the loop if the head declares it and nothing in
between does. -/
theorem Loop.toHead_along {inBody : Bool} :
    ((loop.context inBody).along path).ToHead name ↔
      name ∈ loop.decl.names ∧ UnboundOn name path := by
  unfold Capture.Context.ToHead
  rcases exists_innermost name path with hunbound | ⟨around, node, inner, rfl, hbinds, hinner⟩
  · rw [Loop.resolve_along_of_unbound hunbound]
    split <;> simp_all
  · have hbound : ¬ UnboundOn name (around ++ node :: inner) :=
      fun h => h node (by simp) hbinds
    rw [Capture.Context.resolve_along _ hbinds hinner]
    split
    · simp only [hbound, and_false, iff_false, not_exists, Option.some.injEq, Prod.mk.injEq]
      rintro crossed ⟨horigin, -⟩
      have hblock := Capture.Context.eq_block_of_originOf horigin (by simp)
      exact Capture.Context.blockOrigin_ne_loopVariable _ hblock.2
    · simp [hbound]

theorem Loop.mem_reassigned :
    name ∈ loop.capture.reassigned ↔ Capture.Finding.reassigned name ∈ loop.findings := by
  refine Capture.mem_collected fun finding => ?_
  cases finding <;> simp

/-- Only the body of a loop shows that a variable is reassigned. -/
theorem Loop.reassigned_mem_findings_iff :
    Capture.Finding.reassigned name ∈ loop.findings ↔
      ∃ path node, node.LiesIn path loop.body ∧
        Capture.Finding.reassigned name ∈ ((loop.context true).along path).own node := by
  have hhead : ∀ part, Capture.Finding.reassigned name ∉
      Capture.findings (loop.context false) part := by
    intro part h
    obtain ⟨path, node, -, hown⟩ := Capture.mem_findings_iff_own.mp h
    obtain ⟨-, hbody, -⟩ := Capture.Context.reassigned_mem_own.mp hown
    rw [Capture.Context.inBody_along] at hbody
    cases hbody
  rw [← Capture.mem_findings_iff_own]
  show _ ∈ Capture.findings (loop.context false) loop.decl.toNode ++
    Capture.findingsIn (loop.context false) loop.head.exprs ++
    Capture.findings (loop.context true) loop.body ↔ _
  rw [Capture.findingsIn_eq_flatMap]
  simp [hhead]

end

/-- The reassigned variables of a loop are the variables of its head that the body assigns, at any
depth, in closures and in the heads of inner loops, by an assignment to the bare name, to a pattern
or to either of them in parentheses, by an update, or by a loop that assigns them in each round.
Targets with the name in an assertion are the exception. -/
theorem Loop.reassigned_iff_writes (loop : Loop) (name : String) :
    name ∈ loop.capture.reassigned ↔
      name ∈ loop.decl.names ∧ ∃ path writer chain, loop.body.Writes name path writer chain ∧
        UnboundOn name (path ++ writer :: chain) ∧
        ∀ node ∈ chain, node.form.isAssertion = false := by
  rw [Loop.mem_reassigned, Loop.reassigned_mem_findings_iff]
  simp only [Capture.Context.reassigned_mem_own, Capture.Context.inBody_along, Loop.toHead_along,
    Node.mem_assignedNames]
  constructor
  · rintro ⟨path, writer, hlies, ⟨target, hwriter, chain, htarget, hchain⟩, -, hname, hunbound⟩
    refine ⟨hname, path, writer, chain, ⟨hlies, target, hwriter, htarget⟩, ?_, hchain⟩
    exact List.forall_mem_append.mpr ⟨hunbound, List.forall_mem_cons.mpr
      ⟨Node.not_binds_of_target? hwriter htarget, htarget.unboundOn⟩⟩
  · rintro ⟨hname, path, writer, chain, ⟨hlies, target, hwriter, htarget⟩, hunbound, hchain⟩
    exact ⟨path, writer, hlies, ⟨target, hwriter, chain, htarget, hchain⟩, rfl, hname,
      (List.forall_mem_append.mp hunbound).1⟩

/-- The loop `for (let i = 0; i < 3; ) { target++; }`. -/
def steppingLoop (target : Node) : Loop :=
  let at0 := Span.generated
  { labels := []
    span := at0
    decl := ⟨.lexical false, false, at0,
      [.declarator false at0 (.binding "i" false at0 .absent) (.mk (.number 0 none) at0 [])]⟩
    head := .plain (.mk (.binary "<") at0 [.use "i" at0, .mk (.number 3 none) at0 []]) .absent
    body := .block at0 [.exprStmt (.mk (.update "++" false) at0 [target])] }

/-- The expression `i!`. -/
def assertedCounter : Node := .mk .nonNull .generated [.use "i" .generated]

example : (steppingLoop (.use "i" .generated)).capture.reassigned = ["i"] := by decide +kernel

/-- The update `i!++` assigns the loop variable, and the analysis does not find it. -/
theorem steppingLoop_assertedCounter_overlooked :
    (steppingLoop assertedCounter).toNode.IsStmt ∧
      "i" ∈ (steppingLoop assertedCounter).decl.names ∧
      (∃ path writer chain, (steppingLoop assertedCounter).body.Writes "i" path writer chain ∧
        UnboundOn "i" (path ++ writer :: chain)) ∧
      "i" ∉ (steppingLoop assertedCounter).capture.reassigned := by
  let writer := Node.mk (.update "++" false) .generated [assertedCounter]
  let path := [(steppingLoop assertedCounter).body, .exprStmt writer]
  refine ⟨by decide +kernel, by decide, ⟨path, writer, [assertedCounter], ?_, ?_⟩,
    by decide +kernel⟩
  · refine ⟨?_, assertedCounter, rfl, ?_⟩
    · exact .part (List.mem_singleton.mpr rfl) (.part (List.mem_singleton.mpr rfl) .self)
    · exact .inside (List.mem_singleton.mpr rfl) (.here (Or.inr rfl))
  · have hbound : ∀ node ∈ path ++ writer :: [assertedCounter],
        "i" ∉ node.scopeNames ∧ node.form.boundary ≠ .function := by decide +kernel
    intro node hmem hbinds
    obtain ⟨hname, hboundary⟩ := hbound node hmem
    exact hbinds.elim hname fun hfunction => hboundary hfunction.2

end LoopLowering
