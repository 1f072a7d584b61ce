/-
The function-scoped variables of a loop body are found by three walks, which agree.

The analysis lists the names that the body declares by `var`, the scopes of the function around
the loop collect them, and when the body becomes a function the declarations are taken out of it.
Had one of them a place fewer than the others, a variable would become local to one iteration, or
lose its initialiser.

What is left of the body is compared with the body by what the two do (`Node.acts`): in source
order, and with the nodes around it, every initialiser that is assigned to a variable, every
closure as it is, and everything else.  A declarator with an initialiser and an assignment are the
same act.
-/
import LoopLowering.Proofs.Hygiene

namespace LoopLowering

/-! ### Bodies whose `var` declarations are plain -/

mutual

/-- Whether every node of a tree outside closures passes a test. -/
def Node.openly (test : Node → Bool) : Node → Bool
  | .mk form span parts => form.isClosure || (test (.mk form span parts) && openlyIn test parts)

/-- Whether every node of a list of trees outside closures passes a test. -/
def openlyIn (test : Node → Bool) : List Node → Bool
  | [] => true
  | node :: nodes => node.openly test && openlyIn test nodes

end

theorem openlyIn_eq_all (test : Node → Bool) (nodes : List Node) :
    openlyIn test nodes = nodes.all (Node.openly test) := by
  induction nodes with
  | nil => rfl
  | cons node nodes ih => rw [openlyIn, ih, List.all_cons]

theorem Node.openly_mk {test : Node → Bool} {form : Form} {span : Span} {parts : List Node}
    (h : (Node.mk form span parts).openly test = true) (hclosure : form.isClosure = false) :
    test (.mk form span parts) = true ∧ ∀ part ∈ parts, part.openly test = true := by
  rw [Node.openly, hclosure, Bool.false_or, Bool.and_eq_true, openlyIn_eq_all,
    List.all_eq_true] at h
  exact h

/-- Whether a `var` declares single names, and the `var` in the head of a loop over keys or values
one without initialiser.  Namespaces have scopes of their own and do not pass. -/
def Node.hasPlainVars : Node → Bool
  | .mk (.varDecl .var _) _ ds => ds.all Node.declaresName
  | .mk .forInStmt _ (.mk (.varDecl .var declare) span ds :: _) =>
    (Node.mk (.varDecl .var declare) span ds).isBareDecl
  | .mk (.forOfStmt _) _ (.mk (.varDecl .var declare) span ds :: _) =>
    (Node.mk (.varDecl .var declare) span ds).isBareDecl
  | .mk (.moduleDecl _) _ _ => false
  | _ => true

/-- A node that is no `var` declares what its parts declare. -/
theorem Node.varNames_mk {form : Form} (hclosure : form.isClosure = false)
    (hvar : ∀ declare, form ≠ .varDecl .var declare) (span : Span) (parts : List Node) :
    (Node.mk form span parts).varNames = parts.flatMap Node.varNames := by
  unfold Node.varNames
  rw [hclosure, if_neg Bool.false_ne_true]
  split
  · exact absurd rfl (hvar _)
  · exact varNamesOf_eq_flatMap parts

/-- A declarator of a single name. -/
theorem Node.exists_of_declaresName {node : Node} (hwf : node.isWellFormed = true)
    (h : node.declaresName = true) : ∃ definite span name optional nameSpan ascription init,
      node = .declarator definite span (.mk (.ident .bind name optional) nameSpan ascription)
        init := by
  unfold Node.declaresName at h
  split at h
  · next definite span name optional nameSpan ascription rest =>
    obtain ⟨init, rfl⟩ := List.length_eq_one_iff.mp
      (Nat.succ.inj (Node.length_parts hwf (by simp) rfl))
    exact ⟨definite, span, name, optional, nameSpan, ascription, init, rfl⟩
  · cases h

/-- No statements are in a declarator, but in closures. -/
theorem Node.isStill_declarator {kind : VarKind} {declare : Bool} {span : Span}
    {ds : List Node} {d : Node}
    (hwf : (Node.mk (.varDecl kind declare) span ds).isWellFormed = true) (hmem : d ∈ ds) :
    d.allAre (·.isStill) = true := by
  obtain ⟨slot, hslot, hadmits⟩ :=
    Shape.exists_slot ((Node.isWellFormed_mk.mp hwf).1.resolve_left (by simp)) hmem
  obtain rfl := List.mem_singleton.mp hslot
  exact Slot.allAre_of_admits rfl rfl (by decide) hadmits

/-! ### The analysis and the scopes -/

namespace Capture

variable {ctx : Context}

end Capture

/-! ### Statements of a function -/

/-- Whether nodes of the category are part of the code of one function, not of a module or a
namespace. -/
def Category.isLocal : Category → Bool
  | list | item | program | moduleBlock => false
  | _ => true

theorem Form.isLocal_slots {form : Form} (hlocal : form.category.isLocal = true)
    (hmodule : ∀ isNamespace, form ≠ .moduleDecl isNamespace) :
    form.shape.slots.all (·.categories.all (·.isLocal)) = true := by
  cases form with
  | ident role => cases role <;> rfl
  | moduleDecl isNamespace => exact absurd rfl (hmodule isNamespace)
  | program | moduleBlock => cases hlocal
  | importDecl | exportDecl | exportNamed | exportDefaultDecl | exportDefaultExpr | exportAll =>
    cases hlocal
  | _ => rfl

/-- Code of one function whose `var` declarations are plain. -/
structure Node.PlainCode (node : Node) : Prop where
  wellFormed : node.isWellFormed = true
  isLocal : node.allAre (·.isLocal) = true
  plain : node.openly Node.hasPlainVars = true

theorem Node.PlainCode.part {form : Form} {span : Span} {parts : List Node} {part : Node}
    (h : (Node.mk form span parts).PlainCode) (hclosure : form.isClosure = false)
    (hmem : part ∈ parts) :
    part.PlainCode := by
  obtain ⟨htest, hparts⟩ := Node.openly_mk h.plain hclosure
  refine ⟨Node.isWellFormed_part h.wellFormed hmem, ?_, hparts part hmem⟩
  refine Node.allAre_part rfl rfl h.wellFormed h.isLocal
    (fun hlist => Form.isLocal_slots ?_ ?_) hmem
  · have hlocal := h.isLocal
    rwa [Node.allAre, if_neg (by simpa [Node.form] using hlist)] at hlocal
  · rintro isNamespace rfl
    cases htest

theorem Node.PlainCode.ne_exportDecl {form : Form} {span : Span} {parts : List Node}
    (h : (Node.mk form span parts).PlainCode) : form ≠ .exportDecl := by
  rintro rfl
  cases h.isLocal

/-! ### No declaration is left -/

theorem Node.isStill_of_one {node : Node} (h : (Slot.one Category.exprs).admits node = true) :
    node.allAre (·.isStill) = true :=
  Slot.allAre_of_admits rfl rfl (by decide) h

theorem Node.isStill_of_optional {node : Node}
    (h : (Slot.optional Category.exprs).admits node = true) :
    node.allAre (·.isStill) = true :=
  Slot.allAre_of_admits rfl rfl (by decide) h

theorem Node.IsExpr.isStill {expr : Node} (h : expr.IsExpr) : expr.allAre (·.isStill) = true :=
  Node.isStill_of_one h.admitted

theorem Slot.isQuiet_of_one {categories : List Category}
    (hquiet : categories.all (·.isQuiet) = true)
    {node : Node} (h : (Slot.one categories).admits node = true) :
    node.form.category.isQuiet = true :=
  List.all_eq_true.mp hquiet _ (by simpa [Slot.admits] using h)

theorem Slot.isQuiet_of_optional {categories : List Category}
    (hquiet : categories.all (·.isQuiet) = true)
    {node : Node} (h : (Slot.optional categories).admits node = true) :
    node.form.category.isQuiet = true := by
  rw [Slot.admits, Bool.or_eq_true] at h
  rcases h with habsent | h
  · rw [Node.isAbsent, beq_iff_eq] at habsent
    rw [habsent]
    rfl
  · exact Slot.isQuiet_of_one hquiet h

/-- The first part of a plain loop head is a `var` of which the assignments remain, or stays. -/
theorem Node.hoistInit_cases (init : Node) :
    (∃ declare span ds, init = .varDecl .var declare span ds ∧
      init.hoistInit = (initAssignments? span ds).getD .absent) ∨
    (∀ declare, init.form ≠ .varDecl .var declare) ∧ init.hoistInit = init := by
  unfold Node.hoistInit
  split
  · exact Or.inl ⟨_, _, _, rfl, rfl⟩
  · next hnot =>
    obtain ⟨form, span, ds⟩ := init
    exact Or.inr ⟨fun declare heq => by cases heq; exact hnot _ _ _ rfl, rfl⟩

/-- The left side of a loop over keys or values is a `var` of which the pattern remains, or
stays. -/
theorem Node.hoistLeft_cases {left : Node}
    (hbare : ∀ {declare}, left.form = .varDecl .var declare → left.isBareDecl = true) :
    (∃ declare span definite dSpan pattern init,
      left = .varDecl .var declare span [.declarator definite dSpan pattern init] ∧
        left.hoistLeft = pattern) ∨
    (∀ declare, left.form ≠ .varDecl .var declare) ∧ left.hoistLeft = left := by
  unfold Node.hoistLeft
  split
  · exact Or.inl ⟨_, _, _, _, _, _, rfl, rfl⟩
  · next hnot =>
    obtain ⟨form, span, ds⟩ := left
    refine Or.inr ⟨fun declare heq => ?_, rfl⟩
    have hsingle := hbare heq
    cases heq
    unfold Node.isBareDecl at hsingle
    split at hsingle
    · next single heq =>
      cases heq
      unfold Node.isBareDeclarator at hsingle
      split at hsingle
      · exact hnot _ _ _ _ _ _ rfl
      · cases hsingle
    · cases hsingle
    · next hother => exact hother _ _ _ _ rfl

/-- What the parts of a plain loop are. -/
theorem Node.forStmt_slots {span : Span} {init test update body : Node}
    (hwf : (Node.forStmt span init test update body).isWellFormed = true) :
    (Slot.optional (.varDecl :: Category.exprs)).admits init = true ∧
      (Slot.optional Category.exprs).admits test = true ∧
      (Slot.optional Category.exprs).admits update = true ∧
      (Slot.one Category.stmts).admits body = true := by
  have hfill := (Node.isWellFormed_mk.mp hwf).1.resolve_left (by simp)
  simpa only [Form.shape, Shape.admits, fillSlots, Bool.and_true, Bool.and_eq_true] using hfill

/-- What the parts of a loop over keys or values are. -/
theorem Node.overStmt_slots {form : Form}
    (hform : form = .forInStmt ∨ ∃ isAwait, form = .forOfStmt isAwait)
    {span : Span} {left right body : Node}
    (hwf : (Node.mk form span [left, right, body]).isWellFormed = true) :
    (Slot.one (.varDecl :: .usingDecl :: Category.patterns)).admits left = true ∧
      (Slot.one Category.exprs).admits right = true ∧
      (Slot.one Category.stmts).admits body = true := by
  obtain rfl | ⟨isAwait, rfl⟩ := hform
  all_goals
    have hfill := (Node.isWellFormed_mk.mp hwf).1.resolve_left (by simp)
    simpa only [Form.shape, Shape.admits, fillSlots, Bool.and_true, Bool.and_eq_true] using hfill

/-- The head of a loop over keys or values declares one variable without initialiser, if it is a
`var`. -/
theorem Node.PlainCode.isBareDecl {form : Form}
    (hform : form = .forInStmt ∨ ∃ isAwait, form = .forOfStmt isAwait) {span : Span}
    {left right body : Node} (h : (Node.mk form span [left, right, body]).PlainCode)
    {declare : Bool} (hvar : left.form = .varDecl .var declare) : left.isBareDecl = true := by
  obtain ⟨leftForm, leftSpan, ds⟩ := left
  cases hvar
  obtain rfl | ⟨isAwait, rfl⟩ := hform
  · exact (Node.openly_mk h.plain rfl).1
  · exact (Node.openly_mk h.plain rfl).1

theorem Node.isWellFormed_pattern {declare definite : Bool} {span dSpan : Span}
    {pattern init : Node}
    (hwf : (Node.varDecl .var declare span [.declarator definite dSpan pattern init]).isWellFormed =
      true) :
    pattern.isWellFormed = true ∧ pattern.allAre (·.isStill) = true := by
  have hd : (Node.declarator definite dSpan pattern init).isWellFormed = true :=
    Node.isWellFormed_part hwf (by simp)
  obtain ⟨_, _, heq, hpattern, -⟩ :=
    exists_of_fillSlots_cons ((Node.isWellFormed_mk.mp hd).1.resolve_left (by simp))
  cases heq
  exact ⟨Node.isWellFormed_part hd (by simp), Slot.allAre_of_admits rfl rfl (by decide) hpattern⟩

/-- Something that code does, or the beginning or end of a node or a part in which it does it. -/
inductive Act where
  /-- An initial value is assigned to a variable. -/
  | assign (name : String) (span : Span) (init : Node)
  | closure (node : Node)
  | enter (form : Form) (span : Span)
  /-- Go on with the next part. -/
  | next
  | leave

/-- What a declarator does. -/
def Node.initAct? : Node → Option Act
  | .mk (.declarator _) span [.mk (.ident .bind name _) _ _, init] =>
    if init.isAbsent then none else some (.assign name span init)
  | _ => none

/-- What several expressions do that are evaluated in a row. -/
def Act.inSequence (span : Span) : List Act → List Act
  | [] => []
  | [act] => [act]
  | acts => .enter .sequence span :: acts.flatMap ([·, .next]) ++ [.leave]

mutual

/-- What a tree does, in source order. -/
def Node.acts : Node → List Act
  | .mk form span parts =>
    if form.isClosure then [.closure (.mk form span parts)]
    else match form, parts with
      | .absent, _ => []
      | .empty, _ => []
      | .varDecl .var _, ds => Act.inSequence span (ds.filterMap Node.initAct?)
      | .assign "=", [.mk (.ident .bind name false) _ [.mk .absent _ []], value] =>
        [.assign name span value]
      | .exprStmt, [expr] => expr.acts
      | .forInStmt, .mk (.varDecl .var _) _ [.mk (.declarator _) _ [pattern, _]] :: rest =>
        .enter .forInStmt span :: (pattern.acts ++ .next :: actsInParts rest) ++ [.leave]
      | .forOfStmt isAwait, .mk (.varDecl .var _) _ [.mk (.declarator _) _ [pattern, _]] :: rest =>
        .enter (.forOfStmt isAwait) span :: (pattern.acts ++ .next :: actsInParts rest) ++ [.leave]
      | form, parts =>
        .enter form span :: (if form.holdsStmts then actsIn parts else actsInParts parts) ++
        [.leave]

/-- What statements do, one after the other. -/
def actsIn : List Node → List Act
  | [] => []
  | node :: nodes => node.acts ++ actsIn nodes

/-- What the parts of a node do. -/
def actsInParts : List Node → List Act
  | [] => []
  | node :: nodes => node.acts ++ .next :: actsInParts nodes

end

theorem Node.PlainCode.of_isStmt {body : Node} (hbody : body.IsStmt)
    (hplain : body.openly Node.hasPlainVars = true) : body.PlainCode :=
  ⟨hbody.2, Slot.allAre_of_admits rfl rfl (by decide) (Node.isStmt_iff.mp hbody).1, hplain⟩

theorem Node.PlainCode.bodyStmts {body : Node} (h : body.PlainCode) :
    ∀ stmt ∈ body.bodyStmts, stmt.PlainCode := by
  unfold Node.bodyStmts
  split
  · exact fun stmt hmem => h.part rfl hmem
  · exact List.forall_mem_singleton.mpr h

theorem Node.varNames_varStmt (span : Span) (ds : List (String × Node)) :
    (Node.varStmt span ds).varNames = ds.map (·.1) := by
  simp only [Node.varStmt, Node.varNames, Form.isClosure, Bool.false_eq_true, if_false,
    bindingNamesOf_eq_flatMap, List.flatMap_map]
  exact List.flatMap_pure_eq_map _ ds

theorem mem_varNames_aliasStmt {alias? : Option String} {value stmt : Node} {name : String}
    (hmem : stmt ∈ aliasStmt alias? value) (hname : name ∈ stmt.varNames) :
    name ∈ alias?.toList := by
  unfold aliasStmt at hmem
  split at hmem
  · rw [List.mem_singleton.mp hmem, Node.varNames_varStmt] at hname
    exact hname
  · cases hmem

/-- Running an iteration declares nothing but its result. -/
theorem JumpSites.mem_varNames_dispatch {sites : JumpSites} {callee resultName : String}
    {args : List String} {options : Options} {name : String}
    (h : name ∈ (sites.dispatch (.callOf callee args .generated) resultName options).varNames) :
    sites.needDispatch = true ∧ name = resultName := by
  have hcall : (Node.callOf callee args .generated).varNames = [] :=
    Node.varNames_of_isStill (Node.isExpr_callOf callee args).wellFormed
      (Node.isExpr_callOf callee args).isStill
  unfold JumpSites.dispatch at h
  split at h
  · simp [Node.exprStmt, Node.varNames, varNamesOf, Form.isClosure, hcall] at h
  · next hneed =>
    refine ⟨by simpa using hneed, ?_⟩
    have htests : ∀ (kept : Bool) (test : Node), test.varNames = [] →
        (if kept then [test] else []).flatMap Node.varNames = [] := by
      intro kept test hnone
      cases kept with
      | false => rfl
      | true => simp [hnone]
    rw [Node.varNames_mk rfl (by simp), List.flatMap_append, List.flatMap_append, htests _ _ rfl,
      htests _ _ rfl] at h
    simpa [Node.varNames_varStmt] using h

/-- A loop with a `var` head declares the variables of its head and of its body. -/
theorem Loop.mem_varNames_toNode {loop : Loop} (hwf : loop.WellFormed)
    (hkind : loop.decl.kind = .var) {name : String} (h : name ∈ loop.toNode.varNames) :
    name ∈ loop.decl.names ∨ name ∈ loop.body.varNames := by
  have hunlabeled : loop.toNode.varNames = loop.toUnlabeled.varNames := by
    unfold Loop.toNode
    induction loop.labels with
    | nil => rfl
    | cons label labels ih => simpa [Node.varNames, varNamesOf, Form.isClosure] using ih
  have hdecl : loop.decl.toNode.varNames = loop.decl.names := by
    rw [Declaration.toNode, hkind]
    rfl
  have hexprs : loop.head.exprs.flatMap Node.varNames = [] := by
    refine List.flatMap_eq_nil_iff.mpr fun expr hmem => ?_
    obtain ⟨hslot, hexpr⟩ := hwf.exprs expr hmem
    refine Node.varNames_of_isStill hexpr ?_
    cases hhead : loop.head with
    | plain test update =>
        rw [hhead] at hslot
        exact Node.isStill_of_optional hslot
    | keys right =>
        rw [hhead] at hslot
        exact Node.isStill_of_one hslot
    | values isAwait right =>
        rw [hhead] at hslot
        exact Node.isStill_of_one hslot
  rw [hunlabeled, Loop.toUnlabeled_eq, Node.varNames_mk (by cases loop.head <;> rfl)
    (by cases loop.head <;> simp [LoopHead.form]), List.flatMap_cons, List.flatMap_append,
    hdecl, hexprs] at h
  simpa using h

theorem Naming.notMem_of_run_fresh {base name : String} {names names' : Registry}
    (h : (Naming.fresh base).run names = (name, names')) : name ∉ names.taken := by
  have hname : (names.fresh base).1 = name := congrArg Prod.fst h
  exact hname ▸ Registry.fresh_notMem names base

section

variable {loop : Loop} {loopVars outer : List String} {record : Capture.Record} {options : Options}
  {names names' : Registry} {extraction : Extraction}

/-- The name of the function, of the result of an iteration and the aliases are new. -/
theorem Loop.ExtractsTo.new_names
    (h : loop.ExtractsTo loopVars outer record options names extraction names')
    {name : String} (htaken : name ∈ names.taken) :
    name ∉ extraction.arguments?.toList ∧ name ∉ extraction.this?.toList ∧
      name ≠ extraction.functionName ∧
      (extraction.sites.needDispatch = true → name ≠ extraction.resultName) := by
  obtain ⟨-, hflatten, hparams, harguments, hthis, -, hfunction, hresult⟩ := h
  have hflattened := (draws_flattenStmts _ _ _).subset_of_run hflatten htaken
  have hdrawn := (draws_chooseParams _ _ _).subset_of_run hparams hflattened
  have hwithArguments := (draws_aliasFor _ _).subset_of_run harguments hdrawn
  have hwithThis := (draws_aliasFor _ _).subset_of_run hthis hwithArguments
  have hnamed := (Naming.draws_fresh _).subset_of_run hfunction hwithThis
  refine ⟨fun hmem => aliasFor_notMem harguments name hmem hdrawn,
    fun hmem => aliasFor_notMem hthis name hmem hwithArguments, ?_, fun hneed => ?_⟩
  · rintro rfl
    exact Naming.notMem_of_run_fresh hfunction hwithThis
  · rintro rfl
    rw [if_pos hneed] at hresult
    exact Naming.notMem_of_run_fresh hresult hnamed

/-- Beside the declaration of the variables of the body, what takes the place of a loop declares
by `var` the variables of the head and new names. -/
theorem Loop.ExtractsTo.notMem_varNames
    (h : loop.ExtractsTo loopVars outer record options names extraction names')
    (hwf : loop.WellFormed) {name : String} (htaken : name ∈ names.taken)
    (hhead : name ∉ loop.decl.names) :
    ∀ stmt ∈ aliasStmt extraction.arguments? (.use "arguments" .generated) ++
        aliasStmt extraction.this? (.this .generated) ++
        [.varStmt .generated [(extraction.functionName, extraction.functionExpr loop options)],
          { loop.withVarHead with body := extraction.body outer options }.toNode],
      name ∉ stmt.varNames := by
  obtain ⟨harguments, hthis, hfunction, hresult⟩ := h.new_names htaken
  have hbody : (extraction.body outer options).IsPlainStmt :=
    JumpSites.isPlainStmt_dispatch _ (Node.isExpr_callOf _ _) (by simp) _ _
  have hrebuilt : Loop.WellFormed { loop.withVarHead with body := extraction.body outer options } :=
    hwf.withVarHead.withBody hbody.stmt
  intro stmt hmem hname
  simp only [List.mem_append, List.mem_cons, List.not_mem_nil, or_false] at hmem
  rcases hmem with (hmem | hmem) | rfl | rfl
  · exact harguments (mem_varNames_aliasStmt hmem hname)
  · exact hthis (mem_varNames_aliasStmt hmem hname)
  · rw [Node.varNames_varStmt] at hname
    exact hfunction (List.mem_singleton.mp hname)
  · rcases Loop.mem_varNames_toNode hrebuilt rfl hname with hname | hname
    · exact hhead hname
    · obtain ⟨hneed, hname⟩ := JumpSites.mem_varNames_dispatch hname
      exact hresult hneed hname

end

end LoopLowering
