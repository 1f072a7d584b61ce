/-
Every name of the program is known.

A registry protects a tree if it knows every name of the tree: then a name drawn from it
means nothing in the tree yet.  The registry a program starts with is made from its names.
Every rewriting puts names into the tree only after they have been drawn, or moves names the
tree had before, so after each step the registry knows every name of the tree again.
-/
import LoopLowering.Proofs.Names
import LoopLowering.Proofs.Steps

namespace LoopLowering

/-! ### Trees whose names are known -/

/-- The registry knows every name of the tree. -/
def Node.Known (names : Registry) (node : Node) : Prop :=
  ∀ name ∈ node.names, name ∈ names.taken

variable {names names' : Registry}

theorem Node.known_mk {form : Form} {span : Span} {parts : List Node} :
    (Node.mk form span parts).Known names ↔
      (∀ name ∈ form.names, name ∈ names.taken) ∧ ∀ part ∈ parts, part.Known names := by
  unfold Node.Known
  rw [Node.names, namesOf_eq_flatMap]
  simp only [List.mem_append, List.mem_flatMap]
  exact ⟨fun h => ⟨fun name hmem => h name (.inl hmem),
      fun part hpart name hmem => h name (.inr ⟨part, hpart, hmem⟩)⟩,
    fun h name hname => hname.elim (h.1 name) fun ⟨part, hpart, hmem⟩ => h.2 part hpart name hmem⟩

/-- A node that has no name itself is known if its parts are. -/
theorem Node.known_parts {form : Form} {span : Span} {parts : List Node} (hform : form.names = []) :
    (Node.mk form span parts).Known names ↔ ∀ part ∈ parts, part.Known names := by
  rw [Node.known_mk, hform]
  simp

theorem Node.known_ofTree (tree : Node) : tree.Known (.ofTree tree) := fun _ h => h

theorem Node.Known.mono {node : Node} (h : node.Known names) (hsub : names.taken ⊆ names'.taken) :
    node.Known names' :=
  fun name hname => hsub (h name hname)

theorem Node.Known.part {form : Form} {span : Span} {parts : List Node} {part : Node}
    (h : (Node.mk form span parts).Known names) (hmem : part ∈ parts) : part.Known names :=
  (Node.known_mk.mp h).2 part hmem

@[simp] theorem Node.known_absent : Node.absent.Known names :=
  (Node.known_parts rfl).mpr (by simp)

@[simp] theorem Node.known_use {name : String} {span : Span} :
    (Node.use name span).Known names ↔ name ∈ names.taken := by
  simp [Node.known_mk, Form.names]

@[simp] theorem Node.known_keyValue {key : String} {value : Node} {span : Span} :
    (Node.keyValue key value span).Known names ↔ value.Known names := by
  simp [Node.keyValue, Node.known_mk, Form.names]

@[simp] theorem Node.known_assignTo {target : String} {value : Node} {span : Span} :
    (Node.assignTo target value span).Known names ↔
      target ∈ names.taken ∧ value.Known names := by
  simp [Node.assignTo, Node.known_mk, Form.names]

@[simp] theorem Node.known_exprStmt {expr : Node} :
    (Node.exprStmt expr).Known names ↔ expr.Known names := by
  simp [Node.exprStmt, Node.known_mk, Form.names]

@[simp] theorem Node.known_block {span : Span} {stmts : List Node} :
    (Node.block span stmts).Known names ↔ ∀ stmt ∈ stmts, stmt.Known names :=
  Node.known_parts rfl

@[simp] theorem Node.known_varStmt {span : Span} {declarators : List (String × Node)} :
    (Node.varStmt span declarators).Known names ↔
      ∀ pair ∈ declarators, pair.1 ∈ names.taken ∧ pair.2.Known names := by
  rw [Node.varStmt, Node.known_parts rfl, List.forall_mem_map]
  simp [Node.known_mk, Form.names]

@[simp] theorem Node.known_callOf {callee : String} {args : List String} {span : Span} :
    (Node.callOf callee args span).Known names ↔
      callee ∈ names.taken ∧ ∀ arg ∈ args, arg ∈ names.taken := by
  simp [Node.callOf, Node.list, Node.known_mk, Form.names]

@[simp] theorem Node.known_functionOf {params : List String} {stmts : List Node} {span : Span} :
    (Node.functionOf params stmts span).Known names ↔
      (∀ param ∈ params, param ∈ names.taken) ∧ ∀ stmt ∈ stmts, stmt.Known names := by
  simp [Node.functionOf, Node.list, Node.known_mk, Form.names]

/-- A new name means nothing in a tree whose names are known. -/
theorem Node.Known.notMem {node : Node} (h : node.Known names) {name : String}
    (hname : name ∉ names.taken) : name ∉ node.names :=
  fun hmem => hname (h name hmem)

/-- The names a tree binds are names of the tree. -/
theorem Node.bindingNames_subset (node : Node) : node.bindingNames ⊆ node.names := by
  induction node using Node.inductionOn with
  | step form span parts ih =>
      have hpart : ∀ part ∈ parts, part.bindingNames ⊆ (Node.mk form span parts).names := by
        intro part hmem name hname
        rw [Node.names, namesOf_eq_flatMap]
        exact List.mem_append_right _ (List.mem_flatMap.mpr ⟨part, hmem, ih part hmem hname⟩)
      unfold Node.bindingNames
      split
      case h_1 heq =>
        cases heq
        simp [Node.names, Form.names]
      case h_2 heq =>
        cases heq
        intro name hname
        rw [bindingNamesOf_eq_flatMap] at hname
        obtain ⟨part, hmem, hname⟩ := List.mem_flatMap.mp hname
        exact hpart part hmem hname
      case h_12 => exact List.nil_subset _
      all_goals
        next heq =>
        cases heq
        exact hpart _ (by simp)

/-! ### Rewriting -/

theorem Node.Known.substitute {old new : String} (hnew : new ∈ names.taken) {node : Node}
    (h : node.Known names) : (node.substitute old new).Known names := by
  induction node using Node.inductionOn with
  | step form span parts ih =>
      obtain ⟨hform, hparts⟩ := Node.known_mk.mp h
      have hrest : ∀ part ∈ substituteIn old new parts, part.Known names := by
        rw [substituteIn_eq_map]
        simpa using fun part hmem => ih part hmem (hparts part hmem)
      unfold Node.substitute
      split
      · exact h
      split
      · split
        · simp [hnew]
        · exact Node.known_mk.mpr ⟨hform, hrest⟩
      · refine Node.known_mk.mpr ⟨?_, hrest⟩
        simp only [Form.names, List.mem_singleton, forall_eq] at hform ⊢
        split
        · exact hnew
        · exact hform
      · next span name optional keySpan ascription value _ =>
        have hbound := hparts _ List.mem_cons_self
        have hvalue : (value.substitute old new).Known names := hrest _ (by simp [substituteIn])
        split
        · have hnamed : (Node.mk (.ident .bind new optional) keySpan ascription).Known names :=
            Node.known_mk.mpr ⟨by simp [Form.names, hnew], (Node.known_mk.mp hbound).2⟩
          refine (Node.known_parts rfl).mpr (List.forall_mem_cons.mpr ⟨?_, ?_⟩)
          · exact (Node.known_parts rfl).mpr (by simp)
          · cases value.isAbsent with
            | true => simpa using hnamed
            | false => simpa using (Node.known_parts rfl).mpr (by simpa using ⟨hnamed, hvalue⟩)
        · next hname =>
          have hkept := hrest _ List.mem_cons_self
          rw [Node.substitute_binding _ _ _ hname] at hkept
          exact (Node.known_parts rfl).mpr (by simpa using ⟨hkept, hvalue⟩)
      · exact Node.known_mk.mpr ⟨hform, hrest⟩

theorem Node.Known.rename {old new : String} (hnew : new ∈ names.taken) {node : Node}
    (h : node.Known names) : (node.rename old new).Known names := by
  unfold Node.rename
  split
  · exact h
  · exact h.substitute hnew

theorem Node.Known.renameAll {renamings : List (String × String)}
    (hnew : ∀ pair ∈ renamings, pair.2 ∈ names.taken) {node : Node} (h : node.Known names) :
    (renameAll renamings node).Known names := by
  induction renamings generalizing node with
  | nil => exact h
  | cons pair renamings ih =>
      rw [List.forall_mem_cons] at hnew
      exact ih hnew.2 (h.rename hnew.1)

theorem Node.Known.useAliases {aliases : Aliases}
    (hthis : ∀ name, aliases.this? = some name → name ∈ names.taken)
    (harguments : ∀ name, aliases.arguments? = some name → name ∈ names.taken) {node : Node}
    (h : node.Known names) : (node.useAliases aliases).Known names := by
  induction node using Node.inductionOn with
  | step form span parts ih =>
      obtain ⟨hform, hparts⟩ := Node.known_mk.mp h
      unfold Node.useAliases
      split
      · exact h
      split
      · split
        · next name hname => simp [hthis name hname]
        · exact h
      · split
        · next name hname =>
          exact Node.known_mk.mpr ⟨by simp [Form.names, harguments name hname], hparts⟩
        · exact h
      · split
        · next name hname => simp [harguments name hname]
        · exact h
      · refine Node.known_mk.mpr ⟨hform, ?_⟩
        rw [useAliasesIn_eq_map]
        simpa using fun part hmem => ih part hmem (hparts part hmem)

/-! ### Declarations taken out of a body -/

theorem Node.Known.initAssignment? {declarator expr : Node} (h : declarator.Known names)
    (hexpr : declarator.initAssignment? = some expr) : expr.Known names := by
  unfold Node.initAssignment? at hexpr
  split at hexpr
  · split at hexpr
    · cases hexpr
    · cases hexpr
      have hname := h.part List.mem_cons_self
      have hinit := h.part (List.mem_cons_of_mem _ List.mem_cons_self)
      simp [(Node.known_mk.mp hname).1 _ List.mem_cons_self, hinit]
  · cases hexpr

theorem known_initAssignments? {span : Span} {declarators : List Node} {expr : Node}
    (h : ∀ declarator ∈ declarators, declarator.Known names)
    (hexpr : initAssignments? span declarators = some expr) : expr.Known names := by
  have hall : ∀ expr ∈ declarators.filterMap Node.initAssignment?, expr.Known names := by
    intro expr hmem
    obtain ⟨declarator, hdeclarator, hinit⟩ := List.mem_filterMap.mp hmem
    exact (h declarator hdeclarator).initAssignment? hinit
  unfold initAssignments? Node.sequence? at hexpr
  split at hexpr
  · cases hexpr
  · next heq =>
    cases hexpr
    exact hall _ (heq ▸ List.mem_singleton_self _)
  · cases hexpr
    exact (Node.known_parts rfl).mpr hall

theorem known_hoistVar (span : Span) {declarators : List Node}
    (h : ∀ declarator ∈ declarators, declarator.Known names) :
    (hoistVar span declarators).Known names := by
  unfold hoistVar
  split
  · next expr hexpr =>
    simp [known_initAssignments? h hexpr]
  · exact (Node.known_parts rfl).mpr (by simp)

theorem Node.Known.hoistInit {node : Node} (h : node.Known names) : node.hoistInit.Known names := by
  unfold Node.hoistInit
  split
  · next span declarators =>
    cases hexpr : initAssignments? span declarators with
    | none => exact Node.known_absent
    | some expr => exact known_initAssignments? (Node.known_mk.mp h).2 hexpr
  · exact h

theorem Node.Known.hoistLeft {node : Node} (h : node.Known names) : node.hoistLeft.Known names := by
  unfold Node.hoistLeft
  split
  · exact (h.part (List.mem_singleton_self _)).part List.mem_cons_self
  · exact h

theorem Node.Known.hoist {node : Node} (h : node.Known names) : node.hoist.Known names := by
  induction node using Node.inductionOn with
  | step form span parts ih =>
      obtain ⟨hform, hparts⟩ := Node.known_mk.mp h
      have hrest : ∀ part ∈ parts, part.hoist.Known names :=
        fun part hmem => ih part hmem (hparts part hmem)
      unfold Node.hoist
      split
      · exact h
      split
      · exact known_hoistVar span hparts
      · exact h
      · simp only [List.forall_mem_cons] at hparts hrest
        obtain ⟨hinit, htest, hupdate, -, -⟩ := hparts
        exact (Node.known_parts rfl).mpr
          (by simpa using ⟨hinit.hoistInit, htest, hupdate, hrest.2.2.2.1⟩)
      · simp only [List.forall_mem_cons] at hparts hrest
        exact (Node.known_parts rfl).mpr
          (by simpa using ⟨hparts.1.hoistLeft, hparts.2.1, hrest.2.2.1⟩)
      · simp only [List.forall_mem_cons] at hparts hrest
        exact (Node.known_parts rfl).mpr
          (by simpa using ⟨hparts.1.hoistLeft, hparts.2.1, hrest.2.2.1⟩)
      · refine Node.known_mk.mpr ⟨hform, fun part hmem => ?_⟩
        rw [hoistIn_eq_map] at hmem
        have hmem : part ∈ parts.map Node.hoist := by
          split at hmem
          · exact List.mem_of_mem_filter hmem
          · exact hmem
        obtain ⟨other, hother, rfl⟩ := List.mem_map.mp hmem
        exact hrest other hother

theorem known_hoistStmts {stmts : List Node} (h : ∀ stmt ∈ stmts, stmt.Known names) :
    ∀ stmt ∈ hoistStmts stmts, stmt.Known names := by
  intro stmt hmem
  rw [hoistStmts, hoistIn_eq_map] at hmem
  obtain ⟨other, hother, rfl⟩ := List.mem_map.mp (List.mem_of_mem_filter hmem)
  exact (h other hother).hoist

/-! ### Flattening -/

theorem Node.Known.flattenDecl {node : Node} (h : node.Known names) (reset : Bool) :
    (node.flattenDecl reset).Known names := by
  have hreset : ∀ declarator : Node, declarator.Known names → declarator.resetInit.Known names := by
    intro declarator hknown
    unfold Node.resetInit
    split
    · have hpattern := hknown.part List.mem_cons_self
      have hinit := hknown.part (List.mem_cons_of_mem _ List.mem_cons_self)
      refine (Node.known_parts rfl).mpr (List.forall_mem_cons.mpr ⟨hpattern, ?_⟩)
      split
      · simp [Node.undefined, Node.known_mk, Form.names]
      · simpa using hinit
    · exact hknown
  unfold Node.flattenDecl
  split
  · refine (Node.known_parts rfl).mpr fun declarator hmem => ?_
    split at hmem
    · obtain ⟨other, hother, rfl⟩ := List.mem_map.mp hmem
      exact hreset other (h.part hother)
    · exact h.part hmem
  · exact h

/-- What is made of known trees is known to the registry that is left. -/
def Naming.Keeps (change : List Node → Naming (List Node)) : Prop :=
  ∀ (stmts : List Node) (names : Registry), (∀ stmt ∈ stmts, stmt.Known names) →
    ∀ stmt ∈ ((change stmts).run names).1, stmt.Known ((change stmts).run names).2

/-- What is made of a known tree, by drawing names, is known to the registry that is left. -/
structure Naming.KeepsNode (node : Node) (x : Naming Node) : Prop where
  draws : x.Draws
  known (names : Registry) (h : node.Known names) : (x.run names).1.Known (x.run names).2

theorem keeps_renameClashing (clashes : String → Bool) (vars : List String) :
    Naming.Keeps (renameClashing clashes vars) := by
  induction vars with
  | nil => exact fun stmts names h => h
  | cons name vars ih =>
      intro stmts names h
      unfold renameClashing
      split
      · have hsub := (Naming.draws_rename name).subset names
        have hnew : (names.rename name).1 ∈ (names.rename name).2.taken :=
          Registry.taken_rename names name ▸ List.mem_cons_self
        refine ih _ _ ?_
        intro stmt hmem
        obtain ⟨other, hother, rfl⟩ := List.mem_map.mp hmem
        exact ((h other hother).mono hsub).rename hnew
      · exact ih stmts names h

section Blocks

variable {change : Bool → List Node → Naming (List Node)}

theorem keeps_changeBlocksIn {again : Bool} {nodes : List Node} {names : Registry}
    (hnodes : ∀ node ∈ nodes, Naming.KeepsNode node (node.changeBlocks change again))
    (h : ∀ node ∈ nodes, node.Known names) :
    ∀ node ∈ ((changeBlocksIn change again nodes).run names).1,
      node.Known ((changeBlocksIn change again nodes).run names).2 := by
  induction nodes generalizing names with
  | nil => exact fun node hmem => absurd hmem List.not_mem_nil
  | cons node nodes ih =>
      rw [List.forall_mem_cons] at h hnodes
      have hrest := draws_changeBlocksIn fun node hmem => (hnodes.2 node hmem).draws
      refine List.forall_mem_cons.mpr ⟨(hnodes.1.known names h.1).mono (hrest.subset _), ?_⟩
      exact ih hnodes.2 fun other hother => (h.2 other hother).mono (hnodes.1.draws.subset names)

theorem Node.keeps_changeBlocks (hdraws : ∀ again stmts, (change again stmts).Draws)
    (hkeeps : ∀ again, Naming.Keeps (change again)) (node : Node) (again : Bool) :
    Naming.KeepsNode node (node.changeBlocks change again) := by
  refine ⟨node.draws_changeBlocks hdraws again, ?_⟩
  induction node using Node.inductionOn generalizing again with
  | step form span parts ih =>
      intro names h
      obtain ⟨hform, hparts⟩ := Node.known_mk.mp h
      unfold Node.changeBlocks
      split
      · exact h
      · split
        · exact (Node.known_parts rfl).mpr (hkeeps again parts names hparts)
        · have hnodes : ∀ part ∈ parts,
              Naming.KeepsNode part (part.changeBlocks change (again || form.isLoop)) :=
            fun part hmem => ⟨part.draws_changeBlocks hdraws _, ih part hmem _⟩
          have hsub := (draws_changeBlocksIn fun part hmem => (hnodes part hmem).draws).subset names
          exact Node.known_mk.mpr ⟨fun name hname => hsub (hform name hname),
            keeps_changeBlocksIn hnodes hparts⟩

end Blocks

theorem keeps_flattenTo (clashes : String → Bool) (depth : Nat) (again : Bool) :
    Naming.Keeps (flattenTo clashes depth again) := by
  induction depth generalizing again with
  | zero => exact fun stmts names h => h
  | succ depth ih =>
      intro stmts names h
      have hrenamed := keeps_renameClashing clashes (stmts.flatMap Node.blockScopedNames)
          stmts names h
      have hnodes : ∀ node : Node, Naming.KeepsNode node
          (node.changeBlocks (flattenTo clashes depth) again) :=
        fun node => node.keeps_changeBlocks (draws_flattenTo clashes depth) ih again
      refine keeps_changeBlocksIn (fun node _ => hnodes node) fun stmt hmem => ?_
      obtain ⟨other, hother, rfl⟩ := List.mem_map.mp hmem
      exact (hrenamed other hother).flattenDecl again

theorem known_flattenStmts {clashes : String → Bool} {again : Bool} {stmts stmts' : List Node}
    (h : ∀ stmt ∈ stmts, stmt.Known names)
    (hrun : (flattenStmts clashes again stmts).run names = (stmts', names')) :
    ∀ stmt ∈ stmts', stmt.Known names' := by
  have hkept := keeps_flattenTo clashes (blockDepthOf stmts + 1) again stmts names h
  unfold flattenStmts at hrun
  rwa [hrun] at hkept

theorem Node.Known.flatten {clashes : String → Bool} {body body' : Node} (h : body.Known names)
    (hrun : (body.flatten clashes).run names = (body', names')) : body'.Known names' := by
  have hkept := (body.keeps_changeBlocks (draws_flattenTo clashes body.blockDepth)
    (keeps_flattenTo clashes body.blockDepth) true).known names h
  unfold Node.flatten at hrun
  rwa [hrun] at hkept

/-! ### Jumps -/

theorem Completion.known_toReturn {completion : Completion}
    (h : ∀ value, completion = .result (some value) → value.Known names) (options : Options)
    (span : Span) : (completion.toReturn options span).Known names := by
  cases completion with
  | normal | leave =>
      simp [Completion.toReturn, Node.returnStmt, Node.stringLit, Node.known_mk, Form.names,
        Node.absent]
  | result value? =>
      cases value? with
      | none =>
          simp [Completion.toReturn, Node.returnStmt, Node.objectOf, Node.undefined, Node.known_mk,
            Form.names, Node.keyValue]
      | some value =>
          simp [Completion.toReturn, Node.returnStmt, Node.objectOf, Node.known_mk, Form.names,
            Node.keyValue, h value rfl]

theorem Node.Known.redirect {redirection : Redirection}
    (hback : ∀ stmt ∈ redirection.writeBack, stmt.Known names) (ctx : JumpContext) {node : Node}
    (h : node.Known names) : (node.redirect redirection ctx).Known names := by
  induction node using Node.inductionOn generalizing ctx with
  | step form span parts ih =>
      obtain ⟨hform, hparts⟩ := Node.known_mk.mp h
      have hnormal : (Completion.normal.toReturn redirection.options span).Known names :=
        Completion.known_toReturn (by simp) _ _
      unfold Node.redirect
      split
      · exact h
      split
      · split
        · exact Completion.known_toReturn (by simp) _ _
        · exact h
      · split
        · unfold Redirection.continueStmt
          simp only
          split
          · exact hnormal
          · refine Node.known_block.mpr fun stmt hmem => ?_
            rcases List.mem_append.mp hmem with hmem | hmem
            · exact hback stmt hmem
            · exact List.mem_singleton.mp hmem ▸ hnormal
        · exact h
      · refine Completion.known_toReturn (fun value hvalue => ?_) _ _
        exact hparts value (List.mem_of_find?_eq_some (Completion.result.inj hvalue))
      · refine Node.known_mk.mpr ⟨hform, ?_⟩
        rw [redirectIn_eq_map]
        simpa using fun part hmem => ih part hmem _ (hparts part hmem)

theorem JumpSites.known_dispatch (sites : JumpSites) {call : Node} (hcall : call.Known names)
    {resultName : String} (hresult : sites.needDispatch = true → resultName ∈ names.taken)
    (options : Options) : (sites.dispatch call resultName options).Known names := by
  unfold JumpSites.dispatch
  split
  · simpa using hcall
  · next hneeded =>
    have hname : resultName ∈ names.taken := hresult (by simpa using hneeded)
    refine Node.known_block.mpr fun stmt hmem => ?_
    simp only [List.mem_append, List.mem_singleton] at hmem
    rcases hmem with (rfl | hmem) | hmem
    · simpa using ⟨hname, hcall⟩
    · split at hmem
      · obtain rfl := List.mem_singleton.mp hmem
        simp [Node.ifStmt, Node.strictEq, Node.stringLit, Node.breakStmt, Node.known_mk, Form.names,
          hname, Node.absent]
      · exact absurd hmem List.not_mem_nil
    · split at hmem
      · obtain rfl := List.mem_singleton.mp hmem
        simp [Node.ifStmt, Node.returnStmt, Node.memberOf, Node.known_mk, Form.names, hname,
          Node.absent]
      · exact absurd hmem List.not_mem_nil

/-! ### What a body asks for -/

namespace Capture

/-- Whether the finding is neither about what a name refers to nor about a `var`. -/
def Finding.isOther : Finding → Bool
  | .usesThis | .reassigned _ | .declared _ | .suspends _ _ | .functionBound _ _ => true
  | _ => false

theorem Context.isOther_of_mem_writes {ctx : Context} {targets : List String} {finding : Finding}
    (h : finding ∈ ctx.writes targets) : finding.isOther = true := by
  obtain ⟨name, -, h⟩ := List.mem_flatMap.mp h
  unfold Context.write at h
  split at h
  · cases h
  · split at h
    · rw [List.mem_singleton.mp h]; rfl
    · cases h

theorem Context.isOther_of_mem_declarations {ctx : Context} {names : List String}
    {finding : Finding} (h : finding ∈ ctx.declarations names) : finding.isOther = true := by
  unfold Context.declarations at h
  split at h
  · obtain ⟨name, -, rfl⟩ := List.mem_map.mp h; rfl
  · obtain ⟨name, -, rfl⟩ := List.mem_map.mp h; rfl
  · cases h

theorem Context.isOther_of_mem_suspension {ctx : Context} {keyword : Keyword} {span : Span}
    {finding : Finding} (h : finding ∈ ctx.suspension keyword span) : finding.isOther = true := by
  unfold Context.suspension at h
  split at h
  · rw [List.mem_singleton.mp h]; rfl
  · cases h

theorem Context.isOther_of_mem_functionBound {ctx : Context} {keyword : Keyword} {span : Span}
    {finding : Finding} (h : finding ∈ ctx.functionBound keyword span) :
    finding.isOther = true := by
  unfold Context.functionBound at h
  split at h
  · rw [List.mem_singleton.mp h]; rfl
  · cases h

/-- What a node shows by itself: what its name refers to, what a declarator of a `var`
declares, or something else. -/
theorem Context.own_cases {ctx : Context} {node : Node} {finding : Finding}
    (h : finding ∈ ctx.own node) :
    (∃ role name optional span parts, node = .mk (.ident role name optional) span parts ∧
        finding ∈ ctx.reference name) ∨
      (∃ declare span declarators, ∃ declarator ∈ declarators,
        node = .varDecl .var declare span declarators ∧
          finding = varDeclarator span declarator) ∨
      finding.isOther = true := by
  unfold Context.own at h
  split at h
  case h_1 => exact Or.inl ⟨_, _, _, _, _, rfl, h⟩
  case h_2 =>
    split at h
    · rw [List.mem_singleton.mp h]
      exact Or.inr (Or.inr rfl)
    · cases h
  case h_5 =>
    split at h
    · obtain ⟨declarator, hmem, rfl⟩ := List.mem_map.mp h
      exact Or.inr (Or.inl ⟨_, _, _, declarator, hmem, rfl, rfl⟩)
    · cases h
  case h_8 =>
    refine Or.inr (Or.inr ?_)
    rcases List.mem_append.mp h with h | h
    · split at h
      · exact Context.isOther_of_mem_suspension h
      · cases h
    · exact Context.isOther_of_mem_writes h
  case h_13 => cases h
  all_goals first
    | exact Or.inr (Or.inr (Context.isOther_of_mem_writes h))
    | exact Or.inr (Or.inr (Context.isOther_of_mem_declarations h))
    | exact Or.inr (Or.inr (Context.isOther_of_mem_suspension h))
    | exact Or.inr (Or.inr (Context.isOther_of_mem_functionBound h))

theorem Context.mem_reference {ctx : Context} {name : String} {finding : Finding}
    (h : finding ∈ ctx.reference name) :
    (∃ origin, finding = .captured origin) ∨ (finding = .usesArguments ∧ name = "arguments") ∨
      finding = .free name := by
  unfold Context.reference at h
  split at h
  · split at h
    · exact Or.inl ⟨_, List.mem_singleton.mp h⟩
    · cases h
  · cases h
  · rcases List.mem_append.mp h with h | h
    · split at h
      · next hname => exact Or.inr (Or.inl ⟨List.mem_singleton.mp h, hname.1⟩)
      · cases h
    · exact Or.inr (Or.inr (List.mem_singleton.mp h))

/-- The name a finding puts into the tree when the body becomes a function. -/
def Finding.emits : Finding → List String
  | .bodyVar name => [name]
  | .usesArguments => ["arguments"]
  | _ => []

theorem Finding.emits_of_isOther {finding : Finding} (h : finding.isOther = true) :
    finding.emits = [] := by
  cases finding with
  | bodyVar | usesArguments => cases h
  | _ => rfl

/-- The names a body asks for are names of the body. -/
theorem emits_subset_names {finding : Finding} {ctx : Context} {node : Node}
    (h : finding ∈ findings ctx node) : finding.emits ⊆ node.names := by
  induction node using Node.inductionOn generalizing ctx with
  | step form span parts ih =>
      rw [findings, findingsIn_eq_flatMap] at h
      rcases List.mem_append.mp h with h | h
      · rcases Context.own_cases h with ⟨role, name, optional, _, _, heq, h⟩ |
          ⟨declare, _, _, declarator, hmem, heq, rfl⟩ | hother
        · cases heq
          rcases Context.mem_reference h with ⟨origin, rfl⟩ | ⟨rfl, rfl⟩ | rfl
          · exact List.nil_subset _
          · simp [Finding.emits, Node.names, Form.names]
          · exact List.nil_subset _
        · cases heq
          unfold Context.varDeclarator
          split
          · rw [Node.names, namesOf_eq_flatMap]
            refine List.cons_subset.mpr ⟨?_, List.nil_subset _⟩
            refine List.mem_append_right _ (List.mem_flatMap.mpr ⟨_, hmem, ?_⟩)
            simp [Node.names, namesOf, Form.names]
          · exact List.nil_subset _
        · rw [Finding.emits_of_isOther hother]
          exact List.nil_subset _
      · obtain ⟨part, hmem, h⟩ := List.mem_flatMap.mp h
        rw [Node.names, namesOf_eq_flatMap]
        exact fun name hname => List.mem_append_right _
          (List.mem_flatMap.mpr ⟨part, hmem, ih part hmem h hname⟩)
end Capture
/-! ### Loops -/

/-- The registry knows every name of the loop. -/
structure Loop.Known (names : Registry) (loop : Loop) : Prop where
  labels : ∀ label ∈ loop.labels, label.text ∈ names.taken
  declarators : ∀ declarator ∈ loop.decl.declarators, declarator.Known names
  exprs : ∀ expr ∈ loop.head.exprs, expr.Known names
  body : loop.body.Known names

theorem Loop.Known.mono {loop : Loop} (h : loop.Known names) (hsub : names.taken ⊆ names'.taken) :
    loop.Known names' :=
  ⟨fun label hmem => hsub (h.labels label hmem), fun d hmem => (h.declarators d hmem).mono hsub,
    fun e hmem => (h.exprs e hmem).mono hsub, h.body.mono hsub⟩

theorem Loop.known_of_ofNode? {stmt : Node} {loop : Loop} (h : Loop.ofNode? stmt = some loop)
    (hstmt : stmt.Known names) : loop.Known names := by
  fun_induction Loop.ofNode? stmt generalizing loop with
  | case1 label span body ih =>
      obtain ⟨inner, hinner, rfl⟩ := Option.map_eq_some_iff.mp h
      obtain ⟨hlabel, hbody⟩ := Node.known_mk.mp hstmt
      have hknown := ih hinner (hbody body (List.mem_singleton_self _))
      refine ⟨List.forall_mem_cons.mpr ⟨?_, hknown.labels⟩, hknown.declarators, hknown.exprs,
        hknown.body⟩
      exact hlabel _ List.mem_cons_self
  | case2 | case3 | case4 =>
      cases h
      have hparts := (Node.known_mk.mp hstmt).2
      simp only [List.forall_mem_cons] at hparts
      refine ⟨by simp, (Node.known_mk.mp hparts.1).2, ?_, ?_⟩
      · simp [LoopHead.exprs, hparts]
      · simp [hparts]
  | case5 => cases h

theorem Loop.Known.toNode {loop : Loop} (h : loop.Known names) : loop.toNode.Known names := by
  have hunlabeled : loop.toUnlabeled.Known names := by
    have hdecl : loop.decl.toNode.Known names := (Node.known_parts rfl).mpr h.declarators
    have hform : loop.head.form.names = [] := by cases loop.head <;> rfl
    rw [Loop.toUnlabeled_eq, Node.known_parts hform]
    simp only [List.forall_mem_cons, List.forall_mem_append]
    exact ⟨hdecl, h.exprs, h.body, by simp⟩
  have hlabels := h.labels
  unfold Loop.toNode
  revert hlabels
  generalize loop.labels = labels
  intro hlabels
  induction labels with
  | nil => exact hunlabeled
  | cons label labels ih =>
      rw [List.forall_mem_cons] at hlabels
      refine Node.known_mk.mpr ⟨by simpa [Form.names] using hlabels.1, ?_⟩
      simpa using ih hlabels.2

/-- The variables a loop declares are known with it. -/
theorem Loop.Known.declNames {loop : Loop} (h : loop.Known names) :
    ∀ name ∈ loop.decl.names, name ∈ names.taken := by
  intro name hname
  rw [Declaration.names, bindingNamesOf_eq_flatMap] at hname
  obtain ⟨declarator, hmem, hname⟩ := List.mem_flatMap.mp hname
  exact h.declarators declarator hmem name (declarator.bindingNames_subset hname)

/-- The names the record of a loop asks for are known with it. -/
theorem Loop.Known.emits {loop : Loop} (h : loop.Known names) {finding : Capture.Finding}
    (hfinding : finding ∈ loop.findings) : ∀ name ∈ finding.emits, name ∈ names.taken := by
  intro name hname
  simp only [Loop.findings, Capture.findingsIn_eq_flatMap, List.mem_append,
    List.mem_flatMap] at hfinding
  obtain (hfinding | ⟨expr, hexpr, hfinding⟩) | hfinding := hfinding
  · have hdecl : loop.decl.toNode.Known names := (Node.known_parts rfl).mpr h.declarators
    exact hdecl name (Capture.emits_subset_names hfinding hname)
  · exact h.exprs expr hexpr name (Capture.emits_subset_names hfinding hname)
  · exact h.body name (Capture.emits_subset_names hfinding hname)

theorem Loop.Known.renameHead {loop : Loop} (h : loop.Known names) (old : String) {new : String}
    (hnew : new ∈ names.taken) : (loop.renameHead old new).Known names := by
  refine ⟨h.labels, ?_, ?_, h.body⟩
  · simpa [Loop.renameHead] using fun d hmem => (h.declarators d hmem).rename hnew
  · simpa [Loop.renameHead] using fun e hmem => (h.exprs e hmem).rename hnew

theorem Loop.Known.renameMentioned {loop : Loop} (h : loop.Known names) (mentioned : String → Bool)
    {vars : List String} (hvars : ∀ name ∈ vars, name ∈ names.taken) :
    (∀ name ∈ ((loop.renameMentioned mentioned vars).run names).1.1,
        name ∈ ((loop.renameMentioned mentioned vars).run names).2.taken) ∧
      Loop.Known ((loop.renameMentioned mentioned vars).run names).2
        ((loop.renameMentioned mentioned vars).run names).1.2 := by
  induction vars generalizing loop names with
  | nil => exact ⟨fun name hmem => absurd hmem List.not_mem_nil, h⟩
  | cons name vars ih =>
      rw [List.forall_mem_cons] at hvars
      unfold Loop.renameMentioned
      split
      · have hsub := (Naming.draws_rename name).subset names
        have hnew : (names.rename name).1 ∈ (names.rename name).2.taken :=
          Registry.taken_rename names name ▸ List.mem_cons_self
        obtain ⟨houter, hloop⟩ := ih ((h.mono hsub).renameHead name hnew)
          fun other hother => hsub (hvars.2 other hother)
        refine ⟨List.forall_mem_cons.mpr ⟨?_, houter⟩, hloop⟩
        exact (Loop.draws_renameMentioned mentioned vars _).subset _ hnew
      · obtain ⟨houter, hloop⟩ := ih h hvars.2
        refine ⟨List.forall_mem_cons.mpr ⟨?_, houter⟩, hloop⟩
        exact (Loop.draws_renameMentioned mentioned vars loop).subset names hvars.1

/-- A function's parameters, its write-backs and its statements are known. -/
theorem known_chooseParams (writtenBack : String → Bool) {vars : List (String × String)}
    {stmts : List Node} (hvars : ∀ var ∈ vars, var.1 ∈ names.taken ∧ var.2 ∈ names.taken)
    (h : ∀ stmt ∈ stmts, stmt.Known names) :
    let result := (chooseParams writtenBack vars stmts).run names
    (∀ param ∈ result.1.params, param ∈ result.2.taken) ∧
      (∀ stmt ∈ result.1.writeBack, stmt.Known result.2) ∧
      ∀ stmt ∈ result.1.stmts, stmt.Known result.2 := by
  induction vars generalizing stmts names with
  | nil =>
      exact ⟨fun _ hmem => absurd hmem List.not_mem_nil,
        fun _ hmem => absurd hmem List.not_mem_nil, h⟩
  | cons var vars ih =>
      obtain ⟨name, outer⟩ := var
      rw [List.forall_mem_cons] at hvars
      unfold chooseParams
      split
      · have hsub := (Naming.draws_fresh name).subset names
        have hnew : (names.fresh name).1 ∈ (names.fresh name).2.taken :=
          Registry.taken_fresh names name ▸ List.mem_cons_self
        have hrenamed : ∀ stmt ∈ stmts.map (·.rename name (names.fresh name).1),
            stmt.Known (names.fresh name).2 := by
          simpa using fun stmt hmem => ((h stmt hmem).mono hsub).rename hnew
        obtain ⟨hparams, hback, hstmts⟩ := ih
          (fun var hmem => (hvars.2 var hmem).imp (fun h => hsub h) fun h => hsub h) hrenamed
        have hrest := (draws_chooseParams writtenBack vars
          (stmts.map (·.rename name (names.fresh name).1))).subset (names.fresh name).2
        refine ⟨List.forall_mem_cons.mpr ⟨hrest hnew, hparams⟩,
          List.forall_mem_cons.mpr ⟨?_, hback⟩, hstmts⟩
        simpa using ⟨hrest (hsub hvars.1.2), hrest hnew⟩
      · obtain ⟨hparams, hback, hstmts⟩ := ih hvars.2 h
        refine ⟨List.forall_mem_cons.mpr ⟨?_, hparams⟩, hback, hstmts⟩
        exact (draws_chooseParams writtenBack vars stmts).subset names hvars.1.1

/-! ### What takes the place of a loop -/

/-- An alias that is drawn is known. -/
theorem known_aliasFor {needed : Bool} {base : String} {alias? : Option String}
    (h : (aliasFor needed base).run names = (alias?, names')) :
    (∀ name, alias? = some name → name ∈ names'.taken) ∧
      (∀ name, alias? = some name → needed = true) := by
  unfold aliasFor at h
  split at h
  · next hneeded =>
    have hrun : (some (names.freshSuffixed base).1, (names.freshSuffixed base).2) =
      (alias?, names') := h
    rw [Prod.mk.injEq] at hrun
    obtain ⟨rfl, rfl⟩ := hrun
    refine ⟨fun name hname => ?_, fun _ _ => hneeded⟩
    cases hname
    exact Registry.taken_freshSuffixed names base ▸ List.mem_cons_self
  · have hrun : ((none : Option String), names) = (alias?, names') := h
    rw [Prod.mk.injEq] at hrun
    obtain ⟨rfl, rfl⟩ := hrun
    simp

theorem known_aliasStmt {alias? : Option String} {value : Node}
    (h : ∀ name, alias? = some name → name ∈ names.taken ∧ value.Known names) :
    ∀ stmt ∈ aliasStmt alias? value, stmt.Known names := by
  cases alias? with
  | none => simp [aliasStmt]
  | some name => simpa [aliasStmt] using h name rfl

theorem Node.Known.bodyStmts {body : Node} (h : body.Known names) :
    ∀ stmt ∈ body.bodyStmts, stmt.Known names := by
  unfold Node.bodyStmts
  split
  · exact Node.known_block.mp h
  · simpa using h

/-- The function of a loop body, and the loop that calls it, are known. -/
theorem Loop.ExtractsTo.known {loop : Loop} {loopVars outer : List String}
    {record : Capture.Record} {options : Options} {extraction : Extraction}
    (h : loop.ExtractsTo loopVars outer record options names extraction names')
    (hloop : loop.Known names) (hvars : ∀ name ∈ loopVars, name ∈ names.taken)
    (houter : ∀ name ∈ outer, name ∈ names.taken)
    (hbodyVars : ∀ name ∈ record.bodyVars, name ∈ names.taken)
    (harguments : record.argumentsCaptured = true → "arguments" ∈ names.taken) :
    ∀ stmt ∈ extraction.replacement loop outer record options, stmt.Known names' := by
  obtain ⟨-, hflatten, hparams, hnamed, hthis, -, hfunction, hresult⟩ := h
  have hflattened := (draws_flattenStmts _ _ _).subset_of_run hflatten
  have hchosen := (draws_chooseParams _ _ _).subset_of_run hparams
  have hafterArguments := (draws_aliasFor _ _).subset_of_run hnamed
  have hafterThis := (draws_aliasFor _ _).subset_of_run hthis
  have hafterFunction := (Naming.draws_fresh _).subset_of_run hfunction
  have hdrawsResult : (if extraction.sites.needDispatch then Naming.fresh options.resultName
      else pure "").Draws := by
    split
    · exact Naming.draws_fresh _
    · exact Naming.draws_pure _
  have hafterResult := hdrawsResult.subset_of_run hresult
  -- From the inside out: what each registry knows, the last one knows.
  have hlast₅ := List.Subset.trans hafterFunction hafterResult
  have hlast₄ := List.Subset.trans hafterThis hlast₅
  have hlast₃ := List.Subset.trans hafterArguments hlast₄
  have hlast₂ := List.Subset.trans hchosen hlast₃
  have hlast₁ := List.Subset.trans hflattened hlast₂
  have hstmts := known_flattenStmts (known_hoistStmts hloop.body.bodyStmts) hflatten
  have hfunctionKnown := known_chooseParams
    (fun name => loop.head.isPlain && record.needsWriteBack name)
    (fun var hmem => ⟨hflattened (hvars _ (List.of_mem_zip hmem).1),
      hflattened (houter _ (List.of_mem_zip hmem).2)⟩) hstmts
  rw [hparams] at hfunctionKnown
  obtain ⟨hparamsKnown, hbackKnown, hbodyKnown⟩ := hfunctionKnown
  obtain ⟨hargumentsKnown, hneeded⟩ := known_aliasFor hnamed
  have hthisKnown := (known_aliasFor hthis).1
  have hbodyStmts : ∀ stmt ∈ extraction.stmts loop.labelNames options, stmt.Known names' := by
    rw [Extraction.stmts, redirectIn_eq_map, useAliasesIn_eq_map]
    simp only [List.forall_mem_map]
    intro stmt hmem
    exact (((hbodyKnown stmt hmem).mono hlast₃).useAliases
      (fun name hname => hlast₅ (hthisKnown name hname))
      fun name hname => hlast₄ (hargumentsKnown name hname)).redirect
        (fun stmt hmem => (hbackKnown stmt hmem).mono hlast₃) _
  have hfunctionName := hafterResult (Naming.mem_of_run_fresh hfunction)
  have hresultName : extraction.sites.needDispatch = true →
      extraction.resultName ∈ names'.taken := by
    intro hdispatch
    rw [if_pos hdispatch] at hresult
    exact Naming.mem_of_run_fresh hresult
  have hargumentsStmt : ∀ stmt ∈ aliasStmt extraction.arguments? (.use "arguments" .generated),
      stmt.Known names' := known_aliasStmt fun name hname =>
    ⟨hlast₄ (hargumentsKnown name hname),
      Node.known_use.mpr (hlast₁ (harguments (hneeded name hname)))⟩
  have hthisStmt : ∀ stmt ∈ aliasStmt extraction.this? (.this .generated), stmt.Known names' :=
    known_aliasStmt fun name hname =>
      ⟨hlast₅ (hthisKnown name hname), (Node.known_parts rfl).mpr (by simp)⟩
  have hhoisted : ∀ stmt ∈ Extraction.hoisted record, stmt.Known names' := by
    unfold Extraction.hoisted
    split
    · simp
    · simpa using fun name hname => hlast₁ (hbodyVars name hname)
  have hfunctionStmt : (Node.varStmt .generated
      [(extraction.functionName, extraction.functionExpr loop options)]).Known names' := by
    rw [Extraction.functionExpr]
    simp only [Node.known_varStmt, List.mem_singleton, forall_eq, Node.known_functionOf,
      List.forall_mem_append]
    exact ⟨hfunctionName, fun param hmem => hlast₃ (hparamsKnown param hmem), hbodyStmts,
      fun stmt hmem => (hbackKnown stmt hmem).mono hlast₃⟩
  have hcall : (extraction.body outer options).Known names' := by
    refine JumpSites.known_dispatch _ (Node.known_callOf.mpr ⟨hfunctionName, ?_⟩) hresultName _
    exact fun name hmem => hlast₁ (houter name hmem)
  have hlastLoop : Loop.Known names'
      { loop.withVarHead with body := extraction.body outer options } :=
    ⟨(hloop.mono hlast₁).labels, (hloop.mono hlast₁).declarators, (hloop.mono hlast₁).exprs, hcall⟩
  simp only [Extraction.replacement, List.forall_mem_append, List.mem_singleton, forall_eq]
  exact ⟨⟨⟨⟨hargumentsStmt, hthisStmt⟩, hhoisted⟩, hfunctionStmt⟩, hlastLoop.toNode⟩

theorem Node.Known.lowerLoop {stmt : Node} (h : stmt.Known names) {mentioned : String → Bool}
    {options : Options} {replacement : List Node} {report : Report}
    (hlower : (stmt.lowerLoop mentioned options).Gives names (replacement, report) names') :
    ∀ stmt ∈ replacement, stmt.Known names' := by
  unfold Node.lowerLoop at hlower
  split at hlower
  · next loop hloop =>
    have hknown := Loop.known_of_ofNode? hloop h
    obtain ⟨outer, renamed, between, hrename, hcases⟩ := Loop.gives_lower hlower
    obtain ⟨houter, hrenamed⟩ := hknown.renameMentioned mentioned hknown.declNames
    have hsub := (Loop.draws_renameMentioned mentioned loop.decl.names loop).subset names
    rw [hrename] at houter hrenamed hsub
    have hvars : ∀ name ∈ loop.decl.names, name ∈ between.taken :=
      fun name hmem => hsub (hknown.declNames name hmem)
    rcases hcases with ⟨-, hextract⟩ | ⟨-, hflatten⟩
    · obtain ⟨extraction, hextracts, rfl, -⟩ := Loop.extractsTo_of_gives hextract
      refine hextracts.known hrenamed hvars houter (fun name hname => ?_) fun hcaptured => ?_
      · have hfound : Capture.Finding.bodyVar name ∈ loop.findings := by
          simp only [Loop.capture, Capture.Record.ofFindings, mem_foldl_addName, List.not_mem_nil,
            false_or, List.mem_filterMap] at hname
          obtain ⟨finding, hmem, heq⟩ := hname
          split at heq
          · cases heq
            exact hmem
          · cases heq
        exact hsub (hknown.emits hfound _ (List.mem_singleton_self _))
      · exact hsub (hknown.emits (of_decide_eq_true hcaptured) _ (List.mem_singleton_self _))
    · obtain ⟨body, hbody, rfl, -⟩ := Loop.run_flattened hflatten
      have hnew : ∀ pair ∈ loop.decl.names.zip outer, pair.2 ∈ between.taken :=
        fun pair hmem => houter pair.2 (List.of_mem_zip hmem).2
      have hlast := (hrenamed.mono ((Node.draws_flatten _ _).subset_of_run hbody))
      have hknown : Loop.Known names' { renamed.withVarHead with body } :=
        ⟨hlast.labels, hlast.declarators, hlast.exprs, (hrenamed.body.renameAll hnew).flatten hbody⟩
      simpa using hknown.toNode
  · simp at hlower

/-! ### Steps and runs -/

theorem Node.Spliced.known {stmt node node' : Node} {replacement : List Node}
    (h : Node.Spliced stmt replacement node node') (hnode : node.Known names)
    (hsub : names.taken ⊆ names'.taken) (hreplacement : ∀ stmt ∈ replacement, stmt.Known names') :
    node'.Known names' := by
  have hrest : ∀ {parts : List Node}, (∀ part ∈ parts, part.Known names) →
      ∀ part ∈ parts, part.Known names' := fun h part hmem => (h part hmem).mono hsub
  induction h with
  | @here form span before after hclosure hcandidate =>
      obtain ⟨hform, hparts⟩ := Node.known_mk.mp hnode
      simp only [List.forall_mem_append, List.forall_mem_cons] at hparts
      refine Node.known_mk.mpr ⟨fun name hname => hsub (hform name hname), ?_⟩
      simp only [List.forall_mem_append]
      refine ⟨⟨hrest hparts.1, ?_⟩, hrest hparts.2.2⟩
      unfold Form.standing
      split
      · exact hreplacement
      · simpa using hreplacement
  | @inside form span before after node node' hclosure hcandidate h ih =>
      obtain ⟨hform, hparts⟩ := Node.known_mk.mp hnode
      simp only [List.forall_mem_append, List.forall_mem_cons] at hparts
      refine Node.known_mk.mpr ⟨fun name hname => hsub (hform name hname), ?_⟩
      simp only [List.forall_mem_append, List.forall_mem_cons]
      exact ⟨hrest hparts.1, ih hparts.2.1, hrest hparts.2.2⟩

theorem Node.Spliced.known_stmt {stmt node node' : Node} {replacement : List Node}
    (h : Node.Spliced stmt replacement node node') (hnode : node.Known names) :
    stmt.Known names := by
  induction h with
  | here => exact hnode.part (by simp)
  | inside _ _ _ ih => exact ih (hnode.part (by simp))

/-- What a region keeps known, a tree around it does. -/
theorem Node.AtRegion.known {change : Node → Node → Prop} (hsub : names.taken ⊆ names'.taken)
    (hchange : ∀ {region region' : Node}, change region region' → region.Known names →
      region'.Known names') {node node' : Node} (h : node.AtRegion change node')
    (hnode : node.Known names) : node'.Known names' := by
  have hreplaced : ∀ {form : Form} {span : Span} {before after : List Node} {a b : Node},
      (Node.mk form span (before ++ a :: after)).Known names → b.Known names' →
        (Node.mk form span (before ++ b :: after)).Known names' := by
    intro form span before after a b hnode hb
    obtain ⟨hform, hparts⟩ := Node.known_mk.mp hnode
    simp only [List.forall_mem_append, List.forall_mem_cons] at hparts
    refine Node.known_mk.mpr ⟨fun name hname => hsub (hform name hname), ?_⟩
    simp only [List.forall_mem_append, List.forall_mem_cons]
    exact ⟨fun part hmem => (hparts.1 part hmem).mono hsub, hb,
      fun part hmem => (hparts.2.2 part hmem).mono hsub⟩
  induction h with
  | program _ h => exact hchange h hnode
  | body _ _ h => exact hreplaced hnode (hchange h (hnode.part (by simp)))
  | inside _ _ ih => exact hreplaced hnode (ih (hnode.part (by simp)))

namespace Moment

variable {options : Options} {moment next start last : Moment} {report : Report}
  {reports : List Report}

/-- A step draws names. -/
theorem Step.draws (h : moment.Step options report next) :
    ∃ drawn, moment.names.Draws drawn next.names := by
  obtain ⟨_, _, ⟨-, hlower, -⟩⟩ := Node.AtRegion.exists_region h
  exact (Node.draws_lowerLoop _ _ _).of_gives hlower

/-- After a step the registry knows the tree again. -/
theorem Step.known (h : moment.Step options report next)
    (hknown : moment.tree.Known moment.names) : next.tree.Known next.names := by
  obtain ⟨_, hdraws⟩ := h.draws
  refine Node.AtRegion.known hdraws.subset ?_ h hknown
  rintro region region' ⟨-, hlower, hspliced⟩ hregion
  exact hspliced.known hregion hdraws.subset ((hspliced.known_stmt hregion).lowerLoop hlower)

theorem Run.draws (h : Run options start reports last) :
    ∃ drawn, start.names.Draws drawn last.names := by
  induction h with
  | done => exact ⟨[], .done⟩
  | step hstep _ ih =>
      obtain ⟨first, hfirst⟩ := hstep.draws
      obtain ⟨rest, hrest⟩ := ih
      exact ⟨first ++ rest, hfirst.trans hrest⟩

/-- A registry that knows the tree at the start of a run knows it throughout. -/
theorem Run.known (h : Run options start reports last)
    (hstart : start.tree.Known start.names) : last.tree.Known last.names :=
  h.invariant (fun hknown hstep => hstep.known hknown) hstart

/-- However a lowering ends, only names have been drawn. -/
theorem Ends.draws {result : Except Refusal (Node × List Report) × Registry}
    (h : last.Ends options reports result) : ∃ drawn, last.names.Draws drawn result.2 := by
  cases h with
  | lowered => exact ⟨[], .done⟩
  | refused h =>
      obtain ⟨_, _, ⟨-, hfails⟩⟩ := Node.AtRegion.exists_region h
      exact (Node.draws_lowerLoop _ _ _).of_fails hfails

end Moment

/-- Throughout the lowering of a program, the registry knows every name of the tree.  The
names drawn on the way differ from each other and from all names of the program, whether the
program is refused in the end or not. -/
theorem Node.lowering_protects_names {program : Node} (hprogram : program.IsProgram)
    (options : Options) :
    (∀ reports moment, Moment.Run options ⟨program, .ofTree program⟩ reports moment →
        ∀ name ∈ moment.tree.names, name ∈ moment.names.taken) ∧
      ∃ reports last drawn, Moment.Run options ⟨program, .ofTree program⟩ reports last ∧
        last.Ends options reports ((program.lowerWith options).run.run (.ofTree program)) ∧
        (Registry.ofTree program).Draws drawn
          ((program.lowerWith options).run.run (.ofTree program)).2 ∧
        drawn.Nodup ∧ ∀ name ∈ drawn, name ∉ program.names := by
  refine ⟨fun reports moment hrun => hrun.known program.known_ofTree, ?_⟩
  obtain ⟨reports, last, hrun, hends⟩ := Node.lowerWith_runs hprogram options (.ofTree program)
  obtain ⟨drawn, hdrawn⟩ := hrun.draws
  obtain ⟨more, hmore⟩ := hends.draws
  have hall := hdrawn.trans hmore
  exact ⟨reports, last, drawn ++ more, hrun, hends, hall, hall.new⟩

/-- Lowering two nested loops draws a name for each of their functions. -/
theorem nestedClosures_names_new :
    nestedClosures.IsProgram ∧
      ∃ reports last drawn, Moment.Run {} ⟨nestedClosures, .ofTree nestedClosures⟩ reports last ∧
        last.Ends {} reports ((nestedClosures.lowerWith {}).run.run (.ofTree nestedClosures)) ∧
        drawn = ["loop", "loop$1"] ∧ drawn.Nodup ∧ ∀ name ∈ drawn, name ∉ nestedClosures.names := by
  have hprogram : nestedClosures.IsProgram := by decide +kernel
  obtain ⟨-, reports, last, drawn, hrun, hends, hdraws, hnew⟩ :=
    Node.lowering_protects_names hprogram {}
  refine ⟨hprogram, reports, last, drawn, hrun, hends, ?_, hnew⟩
  have htaken : drawn.reverse ++ nestedClosures.names =
      ["loop$1", "loop"] ++ nestedClosures.names := by
    have heq := hdraws.taken_eq
    rw [show ((nestedClosures.lowerWith {}).run.run (.ofTree nestedClosures)).2.taken =
      ["loop$1", "loop"] ++ nestedClosures.names by decide +kernel] at heq
    exact heq.symm
  have hreverse := List.append_cancel_right htaken
  rw [← List.reverse_reverse drawn, hreverse]
  rfl

end LoopLowering
