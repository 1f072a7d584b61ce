/-
What the analysis of a loop finds, said of the names that are written in it.

The analysis keeps a stack of scopes and a few flags, and decides about a scope when it opens it.
The same can be said without them.  A name that is written in a tree has the nodes around it, a
path from the tree down to the name.  It refers to what the innermost of them binds that binds the
name, and if none does, to what is around the tree.  Whether a closure lies in between, and whether
the node that binds is a block that each iteration renews, is read off the path.

The stack of the analysis is the path, node by node (`Context.along`), and each flag tells whether a
node of some kind is on it.  From this follows what each finding means.

One node is taken for what it is not.  A loop over keys or values whose head is a `let` or `const`
that declares no name, such as `for (const [] of xs)`, counts as a loop that is not block-scoped.
Where the heads of such loops declare names, the analysis says what it should.
-/
import LoopLowering.Proofs.Alike
import LoopLowering.Proofs.KnownNames

namespace LoopLowering

/-! ### Names and the nodes around them -/

/-- The name is written in the tree, and these are the nodes around it, outermost first. -/
inductive Node.Occurs (name : String) : List Node → Node → Prop
  | here {role : Role} {optional : Bool} {span : Span} {parts : List Node} :
      Occurs name [] (.mk (.ident role name optional) span parts)
  | inside {form : Form} {span : Span} {parts path : List Node} {part : Node}
      (hpart : part ∈ parts) (h : Occurs name path part) :
      Occurs name (.mk form span parts :: path) (.mk form span parts)

/-- No node of the path binds the name. -/
def UnboundOn (name : String) (path : List Node) : Prop := ∀ node ∈ path, ¬ node.Binds name

/-- The path leads into a closure. -/
def Crosses (path : List Node) : Prop := ∃ node ∈ path, node.form.isClosure = true

/-- The nodes around a block of which each iteration has its own: there is no closure and no
block-scoped loop among them. -/
def PerIteration (around : List Node) : Prop :=
  ∀ node ∈ around, node.form.isClosure = false ∧ node.isBlockLoop = false

/-- Some of the nodes is a loop that is not block-scoped. -/
def InInnerLoop (around : List Node) : Prop :=
  ∃ node ∈ around, node.form.isLoop = true ∧ node.isBlockLoop = false

theorem PerIteration.inInnerLoop_iff {around : List Node} (h : PerIteration around) :
    InInnerLoop around ↔ ∃ node ∈ around, node.form.isLoop = true :=
  exists_congr fun node => and_congr_right fun hmem => and_iff_left (h node hmem).2

/-- A name in a closure of the tree refers to what a block declares, and these are the nodes around
the block. -/
def Node.CapturesBlock (tree : Node) (around : List Node) : Prop :=
  ∃ name block inner, tree.Occurs name (around ++ block :: inner) ∧ UnboundOn name inner ∧
    block.form = .block ∧ name ∈ block.scopeNames ∧ Crosses inner

/-- The nodes around a name are in the tree. -/
theorem Node.Occurs.within {name : String} {path : List Node} {tree : Node}
    (h : tree.Occurs name path) : ∀ node ∈ path, node.Within tree := by
  induction h with
  | here => simp
  | inside hpart _ ih =>
      refine List.forall_mem_cons.mpr ⟨.self, fun node hmem => ?_⟩
      exact .part hpart (ih node hmem)

/-- Among the nodes around a name there is an innermost one that binds it, if any does. -/
theorem exists_innermost (name : String) (path : List Node) :
    UnboundOn name path ∨ ∃ around node inner, path = around ++ node :: inner ∧
      node.Binds name ∧ UnboundOn name inner := by
  induction path with
  | nil => exact Or.inl fun node hmem => absurd hmem List.not_mem_nil
  | cons node path ih =>
      rcases ih with hunbound | ⟨around, binder, inner, rfl, hbinds, hinner⟩
      · by_cases hnode : node.Binds name
        · exact Or.inr ⟨[], node, path, rfl, hnode, hunbound⟩
        · exact Or.inl (List.forall_mem_cons.mpr ⟨hnode, hunbound⟩)
      · exact Or.inr ⟨node :: around, binder, inner, rfl, hbinds, hinner⟩

namespace Capture

/-! ### The context at the end of a path -/

/-- The context at the end of a path. -/
def Context.along (ctx : Context) (path : List Node) : Context := path.foldl Context.enter ctx

theorem Context.along_cons (ctx : Context) (node : Node) (path : List Node) :
    ctx.along (node :: path) = (ctx.enter node).along path := rfl

theorem Context.along_append (ctx : Context) (path inner : List Node) :
    ctx.along (path ++ inner) = (ctx.along path).along inner :=
  List.foldl_append

theorem Context.inBody_along (ctx : Context) (path : List Node) :
    (ctx.along path).inBody = ctx.inBody := by
  induction path generalizing ctx with
  | nil => rfl
  | cons node path ih => rw [Context.along_cons, ih, Context.inBody_enter]

theorem Context.inClosure_along (ctx : Context) (path : List Node) :
    (ctx.along path).inClosure = (ctx.inClosure || path.any (·.form.isClosure)) := by
  induction path generalizing ctx with
  | nil => exact (Bool.or_false _).symm
  | cons node path ih =>
      rw [Context.along_cons, ih, Context.inClosure_enter, List.any_cons, Bool.or_assoc]

theorem Context.inNestedLoop_along (ctx : Context) {path : List Node}
    (hwf : ∀ node ∈ path, node.isWellFormed = true) :
    (ctx.along path).inNestedLoop = (ctx.inNestedLoop || path.any Node.isNestedLoop) := by
  induction path generalizing ctx with
  | nil => exact (Bool.or_false _).symm
  | cons node path ih =>
      obtain ⟨hnode, hpath⟩ := List.forall_mem_cons.mp hwf
      rw [Context.along_cons, ih _ hpath, (ctx.loops_enter hnode).1, List.any_cons, Bool.or_assoc]

theorem Context.inInnerLoop_along (ctx : Context) {path : List Node}
    (hwf : ∀ node ∈ path, node.isWellFormed = true) :
    (ctx.along path).inInnerLoop =
      (ctx.inInnerLoop || path.any fun node => node.form.isLoop && !node.isNestedLoop) := by
  induction path generalizing ctx with
  | nil => exact (Bool.or_false _).symm
  | cons node path ih =>
      obtain ⟨hnode, hpath⟩ := List.forall_mem_cons.mp hwf
      rw [Context.along_cons, ih _ hpath, (ctx.loops_enter hnode).2, List.any_cons, Bool.or_assoc]

/-- A name that no node of the path binds means what it means around the path. -/
theorem Context.resolveFrom_along {name : String} {crossed : Bool} (ctx : Context)
    {path : List Node} (h : UnboundOn name path) :
    resolveFrom name crossed (ctx.along path).frames =
      resolveFrom name (crossed || path.any (·.form.isClosure)) ctx.frames := by
  induction path generalizing ctx with
  | nil => rw [List.any_nil, Bool.or_false]; rfl
  | cons node path ih =>
      obtain ⟨hnode, hpath⟩ := List.forall_mem_cons.mp h
      rw [Context.along_cons, ih _ hpath, ctx.resolveFrom_enter hnode, List.any_cons, Bool.or_assoc,
        Bool.or_comm (path.any _)]

/-- A name that a node binds means what the node binds, and the `arguments` that every function
has are not tracked. -/
theorem Context.resolveFrom_enter_of_binds {name : String} {crossed : Bool} (ctx : Context)
    {node : Node} (h : node.Binds name) :
    resolveFrom name crossed (ctx.enter node).frames =
      if name ∈ node.scopeNames then some (ctx.originOf node.form, crossed)
      else some (.untracked, false) := by
  rcases ctx.frames_enter node with hframes | ⟨-, hnone, hclosure⟩
  · rw [hframes, resolveFrom]
    by_cases hname : name ∈ node.scopeNames
    · rw [if_pos hname, if_pos hname]
    · rw [if_neg hname, if_neg hname, if_pos (h.resolve_left hname)]
  · exfalso
    rcases h with hname | ⟨-, hfunction⟩
    · exact List.not_mem_nil (hnone ▸ hname)
    · have hboundary := Form.boundary_bne_block node.form
      rw [hfunction, hclosure] at hboundary
      cases hboundary

/-- A name at the end of a path means what the innermost node says that binds it. -/
theorem Context.resolve_along (ctx : Context) {name : String} {around inner : List Node}
    {node : Node} (hnode : node.Binds name) (hinner : UnboundOn name inner) :
    (ctx.along (around ++ node :: inner)).resolve name =
      if name ∈ node.scopeNames then
        some ((ctx.along around).originOf node.form, inner.any (·.form.isClosure))
      else some (.untracked, false) := by
  rw [Context.resolve, Context.along_append, Context.along_cons, Context.resolveFrom_along _ hinner,
    Bool.false_or, Context.resolveFrom_enter_of_binds _ hnode]

/-- Only what blocks declare is tracked. -/
theorem Context.eq_block_of_originOf {ctx : Context} {form : Form} {origin : Origin}
    (h : ctx.originOf form = origin) (htracked : origin ≠ .untracked) :
    form = .block ∧ ctx.blockOrigin = origin := by
  unfold Context.originOf at h
  split at h
  · exact ⟨rfl, h⟩
  · exact absurd h.symm htracked

theorem Context.blockOrigin_ne_loopVariable (ctx : Context) : ctx.blockOrigin ≠ .loopVariable := by
  unfold Context.blockOrigin
  split
  · simp
  · split <;> simp

/-! ### References -/

/-- A record that collects the names of some findings has the names of these and no others. -/
theorem mem_collected {findings : List Finding} {pick : Finding → Option String} {name : String}
    {sought : Finding} (hpick : ∀ finding, pick finding = some name ↔ finding = sought) :
    name ∈ (findings.filterMap pick).foldl addName [] ↔ sought ∈ findings := by
  simp [mem_foldl_addName, List.mem_filterMap, hpick]

/-- Whether a finding is about what a name refers to. -/
def Finding.isReference : Finding → Bool
  | .captured _ | .free _ => true
  | _ => false

theorem Context.captured_mem_reference {ctx : Context} {name : String} {origin : Origin} :
    Finding.captured origin ∈ ctx.reference name ↔
      ctx.inBody = true ∧ ctx.resolve name = some (origin, true) := by
  unfold Context.reference
  split
  · next other hresolve =>
    rw [hresolve]
    cases ctx.inBody with
    | true => simp [eq_comm]
    | false => simp
  · next hresolve => simp [hresolve]
  · next hresolve =>
    rw [hresolve]
    split <;> simp

theorem Context.free_mem_reference {ctx : Context} {name other : String} :
    Finding.free other ∈ ctx.reference name ↔ other = name ∧ ctx.resolve name = none := by
  unfold Context.reference
  split
  · next hresolve =>
    rw [hresolve]
    split <;> simp
  · next hresolve => simp [hresolve]
  · next hresolve =>
    rw [hresolve]
    split <;> simp

/-- What a tree says about references, its names say at the end of their paths. -/
theorem mem_findings_iff {finding : Finding} (hfinding : finding.isReference = true) {ctx : Context}
    {tree : Node} :
    finding ∈ findings ctx tree ↔
      ∃ name path, tree.Occurs name path ∧ finding ∈ (ctx.along path).reference name := by
  constructor
  · intro h
    induction tree using Node.inductionOn generalizing ctx with
    | step form span parts ih =>
        rw [findings, findingsIn_eq_flatMap] at h
        rcases List.mem_append.mp h with h | h
        · rcases Context.own_cases h with ⟨role, name, optional, _, _, heq, h⟩ |
            ⟨_, _, _, declarator, _, _, rfl⟩ | hother
          · cases heq
            exact ⟨name, [], .here, h⟩
          · unfold Context.varDeclarator at hfinding
            split at hfinding
            · cases hfinding
            · cases hfinding
          · cases finding with
            | captured | free => cases hother
            | _ => cases hfinding
        · obtain ⟨part, hmem, h⟩ := List.mem_flatMap.mp h
          obtain ⟨name, path, hoccurs, h⟩ := ih part hmem h
          exact ⟨name, _ :: path, .inside hmem hoccurs, h⟩
  · rintro ⟨name, path, hoccurs, h⟩
    induction hoccurs generalizing ctx with
    | here =>
        rw [findings, Context.own]
        exact List.mem_append_left _ h
    | @inside form span parts path part hmem hoccurs ih =>
        rw [findings, findingsIn_eq_flatMap]
        exact List.mem_append_right _ (List.mem_flatMap.mpr ⟨part, hmem, ih h⟩)

end Capture

/-! ### The names of a loop -/

section

variable {loop : Loop} {inBody : Bool} {name : String} {path around : List Node}

/-- A name that no node of the path binds means what the head of the loop says. -/
theorem Loop.resolve_along_of_unbound (h : UnboundOn name path) :
    ((loop.context inBody).along path).resolve name =
      if name ∈ loop.decl.names then some (.loopVariable, path.any (·.form.isClosure))
      else none := by
  rw [Capture.Context.resolve, Capture.Context.resolveFrom_along _ h, Bool.false_or]
  simp [Loop.context, Capture.Context.resolveFrom]

/-- Where a name points to with a closure in between. -/
theorem Loop.resolve_along_eq_captured {origin : Capture.Origin} :
    ((loop.context inBody).along path).resolve name = some (origin, true) ↔
      (UnboundOn name path ∧ name ∈ loop.decl.names ∧ Crosses path ∧ origin = .loopVariable) ∨
        ∃ around node inner, path = around ++ node :: inner ∧ UnboundOn name inner ∧
          name ∈ node.scopeNames ∧ Crosses inner ∧
          origin = ((loop.context inBody).along around).originOf node.form := by
  constructor
  · intro h
    rcases exists_innermost name path with hunbound | ⟨around, node, inner, rfl, hbinds, hinner⟩
    · rw [Loop.resolve_along_of_unbound hunbound] at h
      split at h
      · next hname =>
        simp only [Option.some.injEq, Prod.mk.injEq] at h
        exact Or.inl ⟨hunbound, hname, List.any_eq_true.mp h.2, h.1.symm⟩
      · cases h
    · rw [Capture.Context.resolve_along _ hbinds hinner] at h
      split at h
      · next hname =>
        simp only [Option.some.injEq, Prod.mk.injEq] at h
        exact Or.inr ⟨around, node, inner, rfl, hinner, hname, List.any_eq_true.mp h.2, h.1.symm⟩
      · cases h
  · rintro (⟨hunbound, hname, hcrosses, rfl⟩ |
      ⟨around, node, inner, rfl, hinner, hname, hcrosses, rfl⟩)
    · rw [Loop.resolve_along_of_unbound hunbound, if_pos hname, List.any_eq_true.mpr hcrosses]
    · rw [Capture.Context.resolve_along _ (Or.inl hname) hinner, if_pos hname,
        List.any_eq_true.mpr hcrosses]

theorem Loop.resolve_along_eq_none :
    ((loop.context inBody).along path).resolve name = none ↔
      UnboundOn name path ∧ name ∉ loop.decl.names := by
  rcases exists_innermost name path with hunbound | ⟨around, node, inner, rfl, hbinds, hinner⟩
  · rw [Loop.resolve_along_of_unbound hunbound]
    simp [hunbound]
  · rw [Capture.Context.resolve_along _ hbinds hinner]
    have hbound : ¬ UnboundOn name (around ++ node :: inner) :=
      fun h => h node (by simp) hbinds
    split <;> simp [hbound]

/-- Whose bindings a block of the body declares, read off the nodes around it. -/
theorem Loop.blockOrigin_along (hwf : ∀ node ∈ around, node.isWellFormed = true) :
    ((loop.context true).along around).blockOrigin =
      if ∃ node ∈ around, node.isNestedLoop = true ∨ node.form.isClosure = true then .untracked
      else if ∃ node ∈ around, node.form.isLoop = true then .innerLoop
      else .iteration := by
  unfold Capture.Context.blockOrigin
  rw [Capture.Context.inBody_along, Capture.Context.inClosure_along,
    Capture.Context.inNestedLoop_along _ hwf, Capture.Context.inInnerLoop_along _ hwf]
  refine ite_congr (propext ?_) (fun _ => rfl) fun hnone =>
    ite_congr (propext ?_) (fun _ => rfl) fun _ => rfl
  · simp only [Loop.context, Capture.Context.inClosure, Bool.not_true, Bool.false_or, List.any_cons,
      List.any_nil, Bool.or_false, bne_self_eq_false, Bool.or_eq_true, List.any_eq_true]
    grind
  · -- Nested loops are out already, so the loops that are left are inner ones.
    have hnested : ∀ node ∈ around, node.isNestedLoop = false := by grind
    simp only [Loop.context, Bool.false_or, List.any_eq_true, Bool.and_eq_true]
    refine exists_congr fun node => and_congr_right fun hmem => ?_
    simp [hnested node hmem]

/-- The blocks of one iteration that are in no loop. -/
theorem Loop.blockOrigin_along_eq_iteration (hwf : ∀ node ∈ around, node.isWellFormed = true) :
    ((loop.context true).along around).blockOrigin = .iteration ↔
      PerIteration around ∧ ¬ InInnerLoop around := by
  have hsplit : ((loop.context true).along around).blockOrigin = .iteration ↔
      (¬ ∃ node ∈ around, node.isNestedLoop = true ∨ node.form.isClosure = true) ∧
        ¬ ∃ node ∈ around, node.form.isLoop = true := by
    rw [Loop.blockOrigin_along hwf]
    split <;> simp_all
  rw [hsplit]
  constructor
  · rintro ⟨hkept, hloops⟩
    have hper : PerIteration around := by
      intro node hmem
      refine ⟨?_, ?_⟩
      · by_contra hclosure
        exact hkept ⟨node, hmem, Or.inr (Bool.not_eq_false _ ▸ hclosure)⟩
      · by_contra hloop
        exact hloops ⟨node, hmem, Node.isLoop_of_isBlockLoop (Bool.not_eq_false _ ▸ hloop)⟩
    exact ⟨hper, fun hinner => hloops (hper.inInnerLoop_iff.mp hinner)⟩
  · rintro ⟨hper, hinner⟩
    refine ⟨?_, fun hloops => hinner (hper.inInnerLoop_iff.mpr hloops)⟩
    rintro ⟨node, hmem, hnested | hclosure⟩
    · rw [Node.isNestedLoop, (hper node hmem).2] at hnested
      cases hnested
    · rw [(hper node hmem).1] at hclosure
      cases hclosure

/-- The blocks of one iteration that are in a loop. -/
theorem Loop.blockOrigin_along_eq_innerLoop (hwf : ∀ node ∈ around, node.isWellFormed = true)
    (hheads : ∀ node ∈ around, node.headBinds = true) :
    ((loop.context true).along around).blockOrigin = .innerLoop ↔
      PerIteration around ∧ InInnerLoop around := by
  have hsplit : ((loop.context true).along around).blockOrigin = .innerLoop ↔
      (¬ ∃ node ∈ around, node.isNestedLoop = true ∨ node.form.isClosure = true) ∧
        ∃ node ∈ around, node.form.isLoop = true := by
    rw [Loop.blockOrigin_along hwf]
    split <;> simp_all
  have hper : (¬ ∃ node ∈ around, node.isNestedLoop = true ∨ node.form.isClosure = true) ↔
      PerIteration around := by
    simp only [not_exists, not_and, not_or, Bool.not_eq_true]
    refine forall₂_congr fun node hmem => ?_
    rw [Node.isNestedLoop, hheads node hmem, Bool.and_true, and_comm]
  rw [hsplit, hper]
  exact and_congr_right fun hper => hper.inInnerLoop_iff.symm

/-- What the names of the head and those of the body say. -/
theorem Loop.mem_findings_iff {finding : Capture.Finding} (hfinding : finding.isReference = true) :
    finding ∈ loop.findings ↔
      (∃ part ∈ loop.decl.toNode :: loop.head.exprs, ∃ name path, part.Occurs name path ∧
          finding ∈ ((loop.context false).along path).reference name) ∨
        ∃ name path, loop.body.Occurs name path ∧
          finding ∈ ((loop.context true).along path).reference name := by
  simp only [← Capture.mem_findings_iff hfinding, List.exists_mem_cons_iff]
  show finding ∈ Capture.findings (loop.context false) loop.decl.toNode ++
    Capture.findingsIn (loop.context false) loop.head.exprs ++
    Capture.findings (loop.context true) loop.body ↔ _
  rw [Capture.findingsIn_eq_flatMap, List.mem_append, List.mem_append, List.mem_flatMap]

/-- A binding is captured if a name of the body points to it with a closure in between. -/
theorem Loop.captured_mem_findings_iff {origin : Capture.Origin} :
    Capture.Finding.captured origin ∈ loop.findings ↔
      ∃ name path, loop.body.Occurs name path ∧
        ((loop.context true).along path).resolve name = some (origin, true) := by
  rw [Loop.mem_findings_iff rfl]
  simp only [Capture.Context.captured_mem_reference, Capture.Context.inBody_along]
  simp [Loop.context]

/-- A name is free if somewhere in the loop it points to nothing. -/
theorem Loop.free_mem_findings_iff :
    Capture.Finding.free name ∈ loop.findings ↔
      ∃ part ∈ loop.decl.toNode :: loop.head.exprs ++ [loop.body], ∃ path,
        part.Occurs name path ∧ UnboundOn name path ∧ name ∉ loop.decl.names := by
  rw [Loop.mem_findings_iff rfl]
  simp only [Capture.Context.free_mem_reference, Loop.resolve_along_eq_none, List.mem_append,
    List.mem_singleton]
  constructor
  · rintro (⟨part, hmem, _, path, hoccurs, rfl, hfree⟩ | ⟨_, path, hoccurs, rfl, hfree⟩)
    · exact ⟨part, Or.inl hmem, path, hoccurs, hfree⟩
    · exact ⟨loop.body, Or.inr rfl, path, hoccurs, hfree⟩
  · rintro ⟨part, hmem | rfl, path, hoccurs, hfree⟩
    · exact Or.inl ⟨part, hmem, name, path, hoccurs, rfl, hfree⟩
    · exact Or.inr ⟨name, path, hoccurs, rfl, hfree⟩

theorem Loop.mem_freeNames :
    name ∈ loop.capture.freeNames ↔ Capture.Finding.free name ∈ loop.findings := by
  refine Capture.mem_collected fun finding => ?_
  cases finding <;> simp

/-- The names of the head are captured where a closure mentions them and nothing else binds them. -/
theorem Loop.variable_captured_iff :
    Capture.Finding.captured .loopVariable ∈ loop.findings ↔
      ∃ name path, loop.body.Occurs name path ∧ UnboundOn name path ∧ name ∈ loop.decl.names ∧
        Crosses path := by
  rw [Loop.captured_mem_findings_iff]
  refine exists₂_congr fun name path => and_congr_right fun _ => ?_
  rw [Loop.resolve_along_eq_captured]
  constructor
  · rintro (⟨hunbound, hname, hcrosses, -⟩ | ⟨_, node, _, _, _, _, _, horigin⟩)
    · exact ⟨hunbound, hname, hcrosses⟩
    · have hblock := Capture.Context.eq_block_of_originOf horigin.symm (by simp)
      exact absurd hblock.2 (Capture.Context.blockOrigin_ne_loopVariable _)
  · rintro ⟨hunbound, hname, hcrosses⟩
    exact Or.inl ⟨hunbound, hname, hcrosses, rfl⟩

/-- The names of a tracked block are captured where a closure mentions them and nothing between it
and the block binds them. -/
theorem Loop.block_captured_iff {origin : Capture.Origin}
    (horigin : origin = .iteration ∨ origin = .innerLoop) :
    Capture.Finding.captured origin ∈ loop.findings ↔
      ∃ around, loop.body.CapturesBlock around ∧
        ((loop.context true).along around).blockOrigin = origin := by
  rw [Loop.captured_mem_findings_iff]
  simp only [Loop.resolve_along_eq_captured]
  constructor
  · rintro ⟨name, path, hoccurs, ⟨-, -, -, rfl⟩ |
      ⟨around, node, inner, rfl, hinner, hname, hcrosses, heq⟩⟩
    · simp at horigin
    · have htracked : origin ≠ .untracked := by
        rintro rfl
        simp at horigin
      obtain ⟨hform, hblock⟩ := Capture.Context.eq_block_of_originOf heq.symm htracked
      exact ⟨around, ⟨name, node, inner, hoccurs, hinner, hform, hname, hcrosses⟩, hblock⟩
  · rintro ⟨around, ⟨name, block, inner, hoccurs, hinner, hform, hname, hcrosses⟩, rfl⟩
    refine ⟨name, _, hoccurs, Or.inr ⟨around, block, inner, rfl, hinner, hname, hcrosses, ?_⟩⟩
    rw [hform]
    rfl

/-- The nodes around a captured block are nodes of the tree. -/
theorem Node.CapturesBlock.within {tree : Node} (h : tree.CapturesBlock around) :
    ∀ node ∈ around, node.Within tree := by
  obtain ⟨name, block, inner, hoccurs, -⟩ := h
  intro node hmem
  exact hoccurs.within node (List.mem_append_left _ hmem)

end

/-- What the analysis of a loop says of its bindings, said of the names that are written in it.

A loop variable is captured if a name in a closure of the body refers to it.  A binding of the body
is captured if a name in a closure refers to what a block declares, each iteration has its own such
block, and the block is in no inner loop.  For blocks in inner loops the same holds, provided every
loop over keys or values with a `let` or `const` head declares a name there.  A name is free if it
refers to nothing in the loop. -/
theorem Loop.capture_follows_names {stmt : Node} {loop : Loop} (hstmt : stmt.IsStmt)
    (hloop : Loop.ofNode? stmt = some loop) :
    (loop.capture.variableCaptured = true ↔
      ∃ name path, loop.body.Occurs name path ∧ UnboundOn name path ∧ name ∈ loop.decl.names ∧
        Crosses path) ∧
    (loop.capture.bodyBindingCaptured = true ↔
      ∃ around, loop.body.CapturesBlock around ∧ PerIteration around ∧ ¬ InInnerLoop around) ∧
    (loop.body.everywhere Node.headBinds = true →
      (loop.capture.innerLoopBindingCaptured = true ↔
        ∃ around, loop.body.CapturesBlock around ∧ PerIteration around ∧ InInnerLoop around)) ∧
    ∀ name, name ∈ loop.capture.freeNames ↔
      ∃ part ∈ loop.decl.toNode :: loop.head.exprs ++ [loop.body], ∃ path,
        part.Occurs name path ∧ UnboundOn name path ∧ name ∉ loop.decl.names := by
  have hbody : loop.body.isWellFormed = true := (Loop.wellFormed_of_ofNode? hloop hstmt.2).body.2
  have hwf : ∀ {around}, loop.body.CapturesBlock around →
      ∀ node ∈ around, node.isWellFormed = true :=
    fun h node hmem => (h.within node hmem).isWellFormed hbody
  refine ⟨?_, ?_, fun hheads => ?_, fun name => ?_⟩
  · rw [← Loop.variable_captured_iff]
    exact decide_eq_true_iff
  · refine decide_eq_true_iff.trans ((Loop.block_captured_iff (Or.inl rfl)).trans ?_)
    refine exists_congr fun around => and_congr_right fun hcaptures => ?_
    exact Loop.blockOrigin_along_eq_iteration (hwf hcaptures)
  · refine decide_eq_true_iff.trans ((Loop.block_captured_iff (Or.inr rfl)).trans ?_)
    refine exists_congr fun around => and_congr_right fun hcaptures => ?_
    refine Loop.blockOrigin_along_eq_innerLoop (hwf hcaptures) fun node hmem => ?_
    exact Node.passes_of_everywhere ((hcaptures.within node hmem).everywhere hheads)
  · rw [Loop.mem_freeNames, Loop.free_mem_findings_iff]

/-- The loop `for (let i of a) { ... }` around `{ let y = 1; fns.push(() => y); }` in an inner
statement. -/
def pushingLoop (inner : Node → Node) : Loop :=
  let at0 := Span.generated
  { labels := []
    span := at0
    decl := ⟨.lexical false, false, at0,
      [.declarator false at0 (.binding "i" false at0 .absent) .absent]⟩
    head := .values false (.use "a" at0)
    body := .block at0
      [inner (.block at0
        [.varDecl (.lexical false) false at0
          [.declarator false at0 (.binding "y" false at0 .absent) (.mk (.number 1 none) at0 [])],
         .exprStmt (.mk .call at0 [.memberOf (.use "fns" at0) "push" at0,
          .list [.mk (.arg none) at0
            [.mk (.arrow false false) at0 [.list [], .use "y" at0, .absent]]]])])] }

/-- The statement `while (more) body`. -/
def whileMore (body : Node) : Node :=
  .mk .whileStmt .generated [.use "more" .generated, body]

/-- The loop `for (const [] of b) body`. -/
def overNothing (body : Node) : Node :=
  let at0 := Span.generated
  .forOfStmt false at0
    (.varDecl (.lexical true) false at0
      [.declarator false at0 (.mk (.arrayPat false) at0 [.list [], .absent]) .absent])
    (.use "b" at0) body

/-- A closure captures what a block in a `while` loop declares. -/
theorem pushingLoop_while_captures :
    (pushingLoop whileMore).toNode.IsStmt ∧
      ∃ around, (pushingLoop whileMore).body.CapturesBlock around ∧ PerIteration around ∧
        InInnerLoop around := by
  have hstmt : (pushingLoop whileMore).toNode.IsStmt := by decide +kernel
  have hcapture := (Loop.capture_follows_names hstmt rfl).2.2.1 (by decide +kernel)
  exact ⟨hstmt, hcapture.mp (by decide +kernel)⟩

/-- The analysis says the same of a loop with a head of its own that declares no name. -/
theorem pushingLoop_overNothing_misread :
    (pushingLoop overNothing).toNode.IsStmt ∧
      Loop.ofNode? (pushingLoop overNothing).toNode = some (pushingLoop overNothing) ∧
      (pushingLoop overNothing).capture.innerLoopBindingCaptured = true ∧
      ¬ ∃ around, (pushingLoop overNothing).body.CapturesBlock around ∧ PerIteration around ∧
        InInnerLoop around := by
  refine ⟨by decide +kernel, rfl, by decide +kernel, ?_⟩
  have hloops : (pushingLoop overNothing).body.everywhere
      (fun node => !node.form.isLoop || node.isBlockLoop) = true := by decide +kernel
  rintro ⟨around, hcaptures, -, node, hmem, hloop, hblock⟩
  have hnode := Node.passes_of_everywhere ((hcaptures.within node hmem).everywhere hloops)
  simp [hloop, hblock] at hnode

end LoopLowering
