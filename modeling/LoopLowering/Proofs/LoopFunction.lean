/-
The function of a loop is free of early errors, and it is called with what its parameters stand for.

Each loop variable has a parameter of its own.  The call hands over the counters of the head in
the order of their declarators, and at every place of the source where the body refers to a loop
variable, the function refers to the parameter at the position of the variable.

At the top of the function nothing is declared by `let` or `const`, for flattening made variables
of these, and the classes are those at the top of the body, with their names.  The analysis counts
a class as a declaration of its block, so no variable of the function is called like one.  But it
does not give the class a new name where it is called like a loop variable, and that is the name
of a parameter (`shadowingLoop_clashes`).
-/
import LoopLowering.Proofs.References

namespace LoopLowering

/-! ### What is declared at the top of a function -/

/-- Whether a node of this form declares a class. -/
def Form.isClassDecl : Form → Bool
  | .classDecl _ => true
  | _ => false

/-- The name of the class that a statement declares, if it is one. -/
def Node.classNames (node : Node) : List String :=
  if node.form.isClassDecl then node.lexicalNames else []

/-- The names that a statement declares by `let`, `const` or `class`.  At the top of a function, a
function is declared like a `var`. -/
def Node.topNames (node : Node) : List String := node.blockScopedNames ++ node.classNames

theorem Node.classNames_eq_nil {node : Node} (h : node.form.isClassDecl = false) :
    node.classNames = [] := by
  rw [Node.classNames, h]
  rfl

theorem Node.classNames_congr {node other : Node}
    (hform : other.form.isClassDecl = node.form.isClassDecl)
    (hnames : other.lexicalNames = node.lexicalNames) : other.classNames = node.classNames := by
  rw [Node.classNames, Node.classNames, hform, hnames]

theorem Node.classNames_subset (node : Node) : node.classNames ⊆ node.lexicalNames := by
  unfold Node.classNames
  split
  · exact List.Subset.refl _
  · exact List.nil_subset _

theorem Form.isClassDecl_eq_false {form : Form} (h : form.declaresInBlock = false) :
    form.isClassDecl = false := by
  cases form with
  | classDecl => cases h
  | _ => rfl

theorem Form.isLexicalDecl_eq_false {form : Form} (h : form.declaresInBlock = false) :
    form.isLexicalDecl = false := by
  cases form with
  | varDecl kind => cases kind with
    | var => rfl
    | lexical => cases h
  | _ => rfl

theorem Node.DeclaresAs.classNames {a b : Node} (h : a.DeclaresAs b) :
    b.classNames = a.classNames :=
  h.read fun _ hform => Node.classNames_eq_nil (Form.isClassDecl_eq_false hform)

section

variable {stmts : List Node} {clashes : String → Bool} {names : Registry}

/-- A class keeps its name when another name is replaced. -/
theorem Node.classNames_rename {old new : String} {node : Node} (hwf : node.isWellFormed = true)
    (hold : old ∉ node.classNames) : (node.rename old new).classNames = node.classNames := by
  unfold Node.rename
  split
  · rfl
  · have hform : (node.substitute old new).form.isClassDecl = node.form.isClassDecl :=
      Node.test_substitute (fun _ _ _ => rfl) rfl rfl rfl node
    cases hclass : node.form.isClassDecl with
    | false => rw [Node.classNames_eq_nil hclass, Node.classNames_eq_nil (hform.trans hclass)]
    | true =>
        rw [Node.classNames, if_pos hclass] at hold
        refine Node.classNames_congr hform ((Node.lexicalNames_substitute hwf).trans ?_)
        refine (List.map_congr_left fun used hmem => ?_).trans (List.map_id _)
        exact if_neg (ne_of_mem_of_not_mem hmem hold)

theorem flatMap_classNames_rename {old new : String}
    (hwf : ∀ stmt ∈ stmts, stmt.isWellFormed = true) (hold : old ∉ stmts.flatMap Node.classNames) :
    (stmts.map (·.rename old new)).flatMap Node.classNames = stmts.flatMap Node.classNames := by
  rw [List.flatMap_map]
  exact List.flatMap_congr fun stmt hmem => Node.classNames_rename (hwf stmt hmem)
    fun hname => hold (List.mem_flatMap.mpr ⟨stmt, hmem, hname⟩)

theorem flatMap_classNames_renameClashing {vars : List String}
    (hwf : ∀ stmt ∈ stmts, stmt.isWellFormed = true)
    (hvars : ∀ var ∈ vars, var ∉ stmts.flatMap Node.classNames) :
    ((renameClashing clashes vars stmts).run names).1.flatMap Node.classNames =
      stmts.flatMap Node.classNames := by
  induction vars generalizing stmts names with
  | nil => rfl
  | cons var vars ih =>
      rw [List.forall_mem_cons] at hvars
      unfold renameClashing
      split
      · have hsame := @flatMap_classNames_rename stmts var (names.rename var).1 hwf hvars.1
        exact (ih (Node.Fits.wellFormed_of_forall₂ ((forall₂_stands_rename var _ hwf).imp
          fun _ _ hs => hs.toFits)) (hsame.symm ▸ hvars.2)).trans hsame
      · exact ih hwf hvars.2

/-- Flattening leaves the classes of a statement list, if it declares their names once. -/
theorem flatMap_classNames_flattenStmts (again : Bool)
    (hwf : ∀ stmt ∈ stmts, stmt.isWellFormed = true)
    (hapart : ∀ name ∈ stmts.flatMap Node.blockScopedNames, name ∉ stmts.flatMap Node.classNames) :
    ((flattenStmts clashes again stmts).run names).1.flatMap Node.classNames =
      stmts.flatMap Node.classNames := by
  let renamed := (renameClashing clashes (stmts.flatMap Node.blockScopedNames) stmts).run names
  have hwfRenamed : ∀ stmt ∈ renamed.1, stmt.isWellFormed = true := Node.Fits.wellFormed_of_forall₂
    (forall₂_fits_renameClashing clashes (stmts.flatMap Node.blockScopedNames) hwf names)
  have hrename : renamed.1.flatMap Node.classNames = stmts.flatMap Node.classNames :=
    flatMap_classNames_renameClashing hwf hapart
  have hdecls : (renamed.1.map (·.flattenDecl again)).flatMap Node.classNames =
      renamed.1.flatMap Node.classNames := by
    rw [List.flatMap_map]
    refine List.flatMap_congr fun stmt _ => ?_
    unfold Node.flattenDecl
    split
    · rfl
    · rfl
  refine Eq.trans (flatMap_congr_of_forall₂
    (forall₂_changeBlocksIn (fun stmt hmem drawn => ?_) renamed.2)) (hdecls.trans hrename)
  obtain ⟨original, horiginal, rfl⟩ := List.mem_map.mp hmem
  exact (Node.DeclaresAs.changeBlocks
    (Node.Fits.flattenDecl again (hwfRenamed original horiginal)).wellFormed drawn).classNames

theorem flatMap_classNames_chooseParams {writtenBack : String → Bool}
    {vars : List (String × String)} (hwf : ∀ stmt ∈ stmts, stmt.isWellFormed = true)
    (hvars : ∀ var ∈ vars, var.1 ∉ stmts.flatMap Node.classNames) :
    ((chooseParams writtenBack vars stmts).run names).1.stmts.flatMap Node.classNames =
      stmts.flatMap Node.classNames := by
  induction vars generalizing stmts names with
  | nil => rfl
  | cons var vars ih =>
      obtain ⟨old, outer⟩ := var
      rw [List.forall_mem_cons] at hvars
      unfold chooseParams
      split
      · have hsame := @flatMap_classNames_rename stmts old (names.fresh old).1 hwf hvars.1
        exact (ih (Node.Fits.wellFormed_of_forall₂ ((forall₂_stands_rename old _ hwf).imp
          fun _ _ hs => hs.toFits)) (hsame.symm ▸ hvars.2)).trans hsame
      · exact ih hwf hvars.2

theorem Node.classNames_useAliases {aliases : Aliases} {node : Node}
    (hwf : node.isWellFormed = true) (hnew : ∀ new ∈ aliases.names, new ∉ node.names) :
    (node.useAliases aliases).classNames = node.classNames := by
  refine Node.classNames_congr ?_ ((Node.BindsLike.useAliases hwf).lexical.same
    fun new hmem hname => hnew new hmem (node.lexicalNames_subset hname))
  obtain ⟨form, span, parts⟩ := node
  unfold Node.useAliases
  split
  · rfl
  · split
    · split <;> rfl
    · split <;> rfl
    · split <;> rfl
    · rfl

end

/-! ### A class at the top of a body -/

/-- A class at the top of a body has the name of no `var` in it. -/
theorem Node.notMem_varNames_of_class {body : Node} (hapart : body.declaresApart = true)
    (hform : body.form.declaresInBlock = false) {name : String}
    (hname : name ∈ body.bodyStmts.flatMap Node.classNames) : name ∉ body.varNames := by
  revert hname
  unfold Node.bodyStmts
  split
  · intro hname
    obtain ⟨stmt, hmem, hname⟩ := List.mem_flatMap.mp hname
    have hdeclared :=
      (Node.bindsOnce_iff.mp (Node.declaresApart_mk hapart rfl).1).2.resolve_left nofun
    exact hdeclared name (List.mem_flatMap.mpr ⟨stmt, hmem, stmt.classNames_subset hname⟩)
  · intro hname
    rw [List.flatMap_cons, Node.classNames_eq_nil (Form.isClassDecl_eq_false hform)] at hname
    cases hname

/-- The analysis finds a class that a block declares, beside what the blocks declare by `let` and
`const`. -/
theorem Capture.count_blockDeclares_lt {ctx : Context} {span : Span}
    {stmts : List Node} {name : String} (hctx : ctx.InIteration)
    (hwf : (Node.mk .block span stmts).isWellFormed = true)
    (hapart : (Node.mk .block span stmts).declaresApart = true)
    (hname : name ∈ stmts.flatMap Node.classNames)
    (hlet : name ∉ stmts.flatMap Node.blockScopedNames) :
    (letsOf (Node.mk .block span stmts).blockDeclares.flatten).count name <
      (findings ctx (.mk .block span stmts)).count (.declared name) := by
  have hinside : (letsOf (blockDeclaresIn stmts).flatten).count name ≤
      (findingsIn (ctx.enter (.mk .block span stmts)) stmts).count (.declared name) :=
    count_blockDeclaresIn_le fun stmt hmem =>
      count_blockDeclares_le (Node.isWellFormed_part hwf hmem)
      ((Node.declaresApart_mk hapart rfl).2 stmt hmem) (hctx.enter hwf rfl rfl) name
  have hown : 1 ≤ (ctx.own (.mk .block span stmts)).count (.declared name) := by
    refine hctx.count_declarations ?_
    obtain ⟨stmt, hmem, hname⟩ := List.mem_flatMap.mp hname
    exact List.mem_flatMap.mpr ⟨stmt, hmem, stmt.classNames_subset hname⟩
  rw [Node.blockDeclares_block, stmtsDeclare, List.flatten_cons, letsOf_append, List.count_append,
    ← flatMap_blockScopedNames_eq_letsOf, List.count_eq_zero_of_not_mem hlet,
    findings, List.count_append]
  omega

/-- A name that is declared once at the top of a statement list is the name of a class or that of
a `let` or `const`. -/
theorem notMem_blockScopedNames_of_class {stmts : List Node} {name : String}
    (htop : (stmts.flatMap Node.topNames).Nodup) (hname : name ∈ stmts.flatMap Node.classNames) :
    name ∉ stmts.flatMap Node.blockScopedNames := by
  have hnodup :=
    (List.flatMap_append_perm stmts Node.blockScopedNames Node.classNames).nodup_iff.mpr htop
  exact fun hlet => List.disjoint_of_nodup_append hnodup hlet hname

/-- What else declares the name of a class at the top of a body by `let` or `const` gives way. -/
theorem Loop.givesWay_class {loop : Loop} (hwf : loop.body.isWellFormed = true)
    (hapart : loop.DeclaresApart) (htop : (loop.body.bodyStmts.flatMap Node.topNames).Nodup)
    (hform : loop.body.form.declaresInBlock = false) (loopVars : List String) {name : String}
    (hname : name ∈ loop.body.bodyStmts.flatMap Node.classNames) :
    GivesWay (bodyClash loop.capture loopVars) name loop.body.blockDeclares := by
  have hcount := loop.count_declared_le name
  have hctx : (loop.context true).InIteration := ⟨rfl, rfl, rfl⟩
  have hlet := notMem_blockScopedNames_of_class htop hname
  have hbody := hapart.body
  revert hname hcount hlet
  generalize loop.context true = ctx at hctx
  generalize loop.body = body at hwf hform hbody
  unfold Node.bodyStmts
  split
  · intro hname hcount hlet
    have hlt := Capture.count_blockDeclares_lt hctx hwf hbody hname hlet
    refine or_iff_not_imp_right.mpr fun hmem => ?_
    have hpos := List.count_pos_iff.mpr (not_not.mp hmem)
    have htwice : 1 < loop.capture.bodyDeclarations.count name := by omega
    simp [bodyClash, htwice]
  · intro hname
    rw [List.flatMap_cons, Node.classNames_eq_nil (Form.isClassDecl_eq_false hform)] at hname
    cases hname

/-! ### What becomes of the body -/

/-- Where a block declares variables only, it declares nothing by `let` or `const`. -/
theorem flatMap_blockScopedNames_eq_nil {span : Span} {stmts : List Node} {turned : List String}
    (h : (Node.block span stmts).blockDeclares.flatten = turned.map (VarKind.var, ·)) :
    stmts.flatMap Node.blockScopedNames = [] := by
  rw [Node.blockDeclares_block, stmtsDeclare, List.flatten_cons] at h
  rw [flatMap_blockScopedNames_eq_letsOf, letsOf, List.map_eq_nil_iff, List.filter_eq_nil_iff]
  intro d hmem
  have hturned : d ∈ turned.map (VarKind.var, ·) := h ▸ List.mem_append_left _ hmem
  obtain ⟨name, -, rfl⟩ := List.mem_map.mp hturned
  exact Bool.false_ne_true

theorem Node.references_bodyStmts {name : String} {body : Node}
    (hform : body.form.declaresInBlock = false) :
    stmtReferences name body.bodyStmts = body.references name := by
  unfold Node.bodyStmts
  split
  · exact Node.references_block.symm
  · have hnone : lexicalNamesOf [body] = [] := by
      simp [lexicalNamesOf, Node.lexicalNames_eq_nil hform]
    rw [stmtReferences, hnone, if_neg List.not_mem_nil, referencesIn, referencesIn, List.append_nil]

theorem Aliases.NewTo.notMem {aliases : Aliases} {names : List String}
    (h : aliases.NewTo names) {name : String} (hname : name ∈ names) : name ∉ aliases.names := by
  intro hmem
  rcases List.mem_append.mp hmem with halias | halias
  · exact h.unused .this name (Option.mem_toList.mp halias) hname
  · exact h.unused .arguments name (Option.mem_toList.mp halias) hname

/-- What is read off the statements that declare names in a block is not lost when they are
hoisted. -/
theorem flatMap_hoistStmts {read : Node → List String} {stmts : List Node}
    (hread : ∀ node : Node, node.form.declaresInBlock = false → read node = [])
    (hwf : ∀ stmt ∈ stmts, stmt.isWellFormed = true) :
    (hoistStmts stmts).flatMap read = stmts.flatMap read := by
  rw [hoistStmts, flatMap_withoutEmpty fun stmt _ hform => hread stmt (by rw [hform]; rfl),
    hoistIn_eq_map, List.flatMap_map]
  exact List.flatMap_congr fun stmt hmem => (Node.DeclaresAs.hoist (hwf stmt hmem)).read hread

/-- Copying parameters back declares nothing in a block. -/
theorem flatMap_writeBackOf {read : Node → List String}
    (hread : ∀ node : Node, node.form.declaresInBlock = false → read node = [])
    (pairs : List (String × String)) : (writeBackOf pairs).flatMap read = [] := by
  rw [writeBackOf_eq_map, List.flatMap_map, List.flatMap_eq_nil_iff]
  exact fun pair _ => hread _ rfl

/-- A loop body that becomes a function: a statement of the language whose `for-in` heads have no
initializers, with the names of its variables in the registry. -/
structure Loop.BodyFits (loop : Loop) (names : Registry) : Prop where
  stmt : loop.body.IsStmt
  form : loop.body.form.declaresInBlock = false
  bare : loop.body.everywhere Node.headIsBare = true
  named : loop.body.VarsNamed
  known : loop.body.Known names

section

variable {loop : Loop} {loopVars outer : List String} {record : Capture.Record} {options : Options}
  {names names' flattened drawn : Registry} {extraction : Extraction}
    {flat : List Node} {name : String}

/-- A name that no `var` of the body declares is referred to where it was when the body is
flattened, and no variable of the function has it, if what else declares it gives way. -/
theorem Loop.Stages.keepsName
    (h : loop.Stages loopVars outer record names extraction flat flattened drawn)
    (hbody : loop.BodyFits names) (htaken : name ∈ names.taken) (hvar : name ∉ loop.body.varNames)
    (hname : GivesWay (bodyClash record loopVars) name loop.body.blockDeclares) :
    stmtReferences name flat = loop.body.references name ∧ name ∉ varNamesOf flat := by
  have hwf : ∀ stmt ∈ loop.body.bodyStmts, stmt.isWellFormed = true :=
    fun stmt hmem => (Node.isStmt_bodyStmts hbody.stmt stmt hmem).2
  have hlexical : loop.body.isLexicalDecl = false := Form.isLexicalDecl_eq_false hbody.form
  have hvars : name ∉ varNamesOf loop.body.bodyStmts := by rwa [Node.varNamesOf_bodyStmts]
  have hgives : GivesWay (bodyClash record loopVars) name
      (stmtsDeclare (hoistStmts loop.body.bodyStmts)) :=
    hname.imp_right fun hnot => by rwa [Node.letsOf_hoistStmts hbody.stmt hlexical]
  have hflat := keepsName_flattenTo (bodyClash record loopVars) _ false
    (hoistStmts loop.body.bodyStmts) names (fun stmt hmem => (h.hoisted stmt hmem).2)
    (known_hoistStmts hbody.known.bodyStmts) (Nat.lt_succ_self _)
    hgives htaken
  have hrun : (flattenTo (bodyClash record loopVars)
      (blockDepthOf (hoistStmts loop.body.bodyStmts) + 1) false
      (hoistStmts loop.body.bodyStmts)).run names = (flat, flattened) := h.flatten
  rw [hrun] at hflat
  refine ⟨hflat.references.trans
    ((stmtReferences_hoistStmts hwf (Node.everywhere_bodyStmts hbody.bare)
    hbody.named.bodyStmts hvars).trans (Node.references_bodyStmts hbody.form)), fun hmem => ?_⟩
  have hhoisted := hflat.vars hmem
  rw [varNamesOf_eq_flatMap] at hhoisted hvars
  have hfollows : FollowsIn name name false false loop.body.bodyStmts
      (hoistStmts loop.body.bodyStmts) :=
    .hoistStmts hwf fun stmt hmem hstmt => hvars (List.mem_flatMap.mpr ⟨stmt, hmem, hstmt⟩)
  exact hvars (hfollows.mem_flatMap (fun _ _ h => h.vars) hhoisted)

/-- The parameters have names of their own, and the function refers to each of them where the body
refers to the variable. -/
theorem Loop.ExtractsTo.references
    (h : loop.ExtractsTo loopVars outer record options names extraction names')
    (hbody : loop.BodyFits names)
    (hvars : ∀ name ∈ loopVars, name ∈ names.taken ∧ name ∉ loop.body.varNames ∧ name ≠ "arguments")
    (houter : ∀ name ∈ outer, name ∈ names.taken) (hnodup : loopVars.Nodup)
    (hlength : loopVars.length ≤ outer.length) :
    extraction.function.params.Nodup ∧ List.Forall₂ (fun name param =>
        stmtReferences param (extraction.stmts loop.labelNames options ++
          extraction.function.writeBack) =
          loop.body.references name) loopVars extraction.function.params := by
  obtain ⟨drawn, -, haliases, -, hparamsDrawn, -, hfunctionKnown⟩ :=
    h.aliases hbody.known (fun name hmem => (hvars name hmem).1) houter
  obtain ⟨flat, flattened, _, hstages⟩ := h.stages hbody.stmt
  have hflatKnown := known_flattenStmts (known_hoistStmts hbody.known.bodyStmts) hstages.flatten
  have hzip : (loopVars.zip outer).map Prod.fst = loopVars := List.map_fst_zip hlength
  have hchosen := @chooseParams_refers (fun name => loop.head.isPlain && record.needsWriteBack name)
    flattened (loopVars.zip outer) flat (fun stmt hmem => (hstages.flat stmt hmem).2) hflatKnown
    (fun var hmem => hstages.grows (hvars _ (List.of_mem_zip hmem).1).1) (by rwa [hzip])
  have horigin := @forall₂_params_chooseParams
    (fun name => loop.head.isPlain && record.needsWriteBack name)
    (loopVars.zip outer) flat flattened
  rw [hstages.choose] at hchosen horigin
  refine ⟨hchosen.1, ?_⟩
  have hall : List.Forall₂ (fun var param =>
      stmtReferences param (extraction.stmts loop.labelNames options ++
        extraction.function.writeBack) =
        loop.body.references var.1) (loopVars.zip outer) extraction.function.params := by
    refine (forall₂_with_mem hchosen.2).imp ?_
    rintro var param ⟨hvar, hparam, hrefers⟩
    have hloopVar := hvars _ (List.of_mem_zip hvar).1
    have harguments : param ≠ "arguments" := by
      obtain ⟨other, hother, -, rfl | ⟨n, rfl⟩⟩ := exists_related_of_forall₂ horigin param hparam
      · exact (hvars _ (List.of_mem_zip hother).1).2.2
      · exact Registry.suffixed_ne_arguments _ n
    have hkept := (hstages.keepsName hbody hloopVar.1 hloopVar.2.1
      (Or.inl (by simp [bodyClash, (List.of_mem_zip hvar).1]))).1
    have haliased := stmtReferences_useAliasesIn
      ⟨harguments, haliases.notMem (hparamsDrawn param hparam)⟩
      (fun stmt hmem => (hstages.function stmt hmem).2) fun new hnew stmt hmem hname =>
        haliases.notMem (hfunctionKnown stmt hmem new hname) hnew
    have hredirected := @stmtReferences_redirectIn param
      ⟨extraction.function.writeBack, options⟩ (.top loop.labelNames)
      (useAliasesIn extraction.aliases extraction.function.stmts)
      (fun stmt hmem => (hstages.prepared stmt hmem).2)
      (hstages.writeBack ▸ flatMap_writeBackOf (fun _ => Node.lexicalNames_eq_nil) _)
      (hstages.writeBack ▸ referencesIn_writeBackOf _)
    exact hredirected.trans (haliased.trans (hrefers.trans hkept))
  have hmapped : List.Forall₂ (fun name param =>
      stmtReferences param (extraction.stmts loop.labelNames options ++
        extraction.function.writeBack) =
        loop.body.references name) ((loopVars.zip outer).map Prod.fst) extraction.function.params :=
    List.forall₂_map_left_iff.mpr hall
  rwa [hzip] at hmapped

/-- The classes at the top of the function are those at the top of the body. -/
theorem Loop.ExtractsTo.classNames
    (h : loop.ExtractsTo loopVars outer record options names extraction names')
    (hbody : loop.BodyFits names) (hvars : ∀ name ∈ loopVars, name ∈ names.taken)
    (houter : ∀ name ∈ outer, name ∈ names.taken)
    (htop : (loop.body.bodyStmts.flatMap Node.topNames).Nodup)
    (hclasses : ∀ name ∈ loopVars, name ∉ loop.body.bodyStmts.flatMap Node.classNames) :
    (extraction.stmts loop.labelNames options ++ extraction.function.writeBack).flatMap
      Node.classNames =
      loop.body.bodyStmts.flatMap Node.classNames := by
  obtain ⟨drawn, -, haliases, -, -, -, hfunctionKnown⟩ := h.aliases hbody.known hvars houter
  obtain ⟨flat, flattened, _, hstages⟩ := h.stages hbody.stmt
  have hnone : ∀ node : Node, node.form.declaresInBlock = false → node.classNames = [] :=
    fun _ hform => Node.classNames_eq_nil (Form.isClassDecl_eq_false hform)
  have hwf : ∀ stmt ∈ loop.body.bodyStmts, stmt.isWellFormed = true :=
    fun stmt hmem => (Node.isStmt_bodyStmts hbody.stmt stmt hmem).2
  have hhoist := flatMap_hoistStmts hnone hwf
  have hlets := flatMap_hoistStmts
    (fun node hform => Node.blockScopedNames_eq_nil (Form.isLexicalDecl_eq_false hform)) hwf
  have hflat := @flatMap_classNames_flattenStmts _ (bodyClash record loopVars) names false
    (fun stmt hmem => (hstages.hoisted stmt hmem).2) fun name hlet hclass =>
      notMem_blockScopedNames_of_class htop (hhoist ▸ hclass) (hlets ▸ hlet)
  rw [hstages.flatten] at hflat
  have hsame : flat.flatMap Node.classNames = loop.body.bodyStmts.flatMap Node.classNames :=
    hflat.trans hhoist
  have hchosen := @flatMap_classNames_chooseParams flat flattened
    (fun name => loop.head.isPlain && record.needsWriteBack name) (loopVars.zip outer)
    (fun stmt hmem => (hstages.flat stmt hmem).2) fun var hmem =>
      hsame ▸ hclasses _ (List.of_mem_zip hmem).1
  rw [hstages.choose] at hchosen
  rw [List.flatMap_append, hstages.writeBack, flatMap_writeBackOf hnone,
    List.append_nil, Extraction.stmts, redirectIn_eq_map, useAliasesIn_eq_map,
    List.flatMap_map, List.flatMap_map]
  refine (List.flatMap_congr fun stmt hmem => ?_).trans (hchosen.trans hsame)
  have hwf := (hstages.function stmt hmem).2
  refine (Node.DeclaresAs.redirect _ (Node.Stands.useAliases _ hwf).wellFormed).classNames.trans ?_
  exact Node.classNames_useAliases hwf fun new hnew hname =>
    haliases.notMem (hfunctionKnown stmt hmem new hname) hnew

/-- The function declares no variable that the flattened body did not declare. -/
theorem Loop.ExtractsTo.notMem_functionVars
    (h : loop.ExtractsTo loopVars outer record options names extraction names')
    (hstages : loop.Stages loopVars outer record names extraction flat flattened drawn)
    (htaken : name ∈ names.taken) (hflat : name ∉ varNamesOf flat) :
    name ∉ varNamesOf (extraction.stmts loop.labelNames options ++
      extraction.function.writeBack) := by
  intro hname
  obtain ⟨harguments, hthis, -, -⟩ := h.new_names htaken
  have hchosen := @followsIn_chooseParams
    (fun name => loop.head.isPlain && record.needsWriteBack name)
    (loopVars.zip outer) flat flattened (fun stmt hmem => (hstages.flat stmt hmem).2) name
    (hstages.grows htaken) true
  rw [hstages.choose] at hchosen
  have hprepared : FollowsIn name name true true flat
      (useAliasesIn extraction.aliases extraction.function.stmts) := by
    rw [useAliasesIn_eq_map]
    refine hchosen.trans (.map fun stmt hmem => .useAliases (hstages.function stmt hmem).2 ?_ ?_)
    · exact fun halias => hthis (Option.mem_toList.mpr halias)
    · exact fun halias => harguments (Option.mem_toList.mpr halias)
  rw [varNamesOf_eq_flatMap, List.flatMap_append, hstages.writeBack, writeBackOf_eq_map,
    List.flatMap_map] at hname
  rcases List.mem_append.mp hname with hname | hname
  · rw [Extraction.stmts, hstages.writeBack, redirectIn_eq_map, List.flatMap_map] at hname
    obtain ⟨stmt, hmem, hname⟩ := List.mem_flatMap.mp hname
    rw [varNamesOf_eq_flatMap] at hflat
    refine hflat (hprepared.mem_flatMap (fun _ _ h => h.vars)
      (List.mem_flatMap.mpr ⟨stmt, hmem, ?_⟩))
    exact Node.varNames_redirect _ _ _ (hstages.prepared stmt hmem).2 hname
  · obtain ⟨_, -, hname⟩ := List.mem_flatMap.mp hname
    cases hname

/-- The function declares nothing by `let` or `const` at its top. -/
theorem Loop.ExtractsTo.blockScopedNames {renamed : Loop} (hrenamed : Loop.Renamed loop renamed)
    (h : renamed.ExtractsTo loop.decl.names outer loop.capture options flattened extraction names')
    (hbody : renamed.BodyFits flattened) (hwf : loop.body.isWellFormed = true)
    (hapart : loop.DeclaresApart) (hknown : loop.Known names)
    (hgrows : names.taken ⊆ flattened.taken) :
    (extraction.stmts renamed.labelNames options ++ extraction.function.writeBack).flatMap
      Node.blockScopedNames = [] := by
  obtain ⟨⟨turned, settled⟩, hsettled⟩ : ∃ settled,
      (settleNames (bodyClash loop.capture loop.decl.names)
      (letsOf loop.body.blockDeclares.flatten)).run flattened = settled := ⟨_, rfl⟩
  obtain ⟨-, hsub, -, horigin⟩ := Loop.settled_apart hwf hapart hknown hgrows
      (fun _ hclear => hclear) hsettled
  have hclear : ∀ name ∈ loop.decl.names, name ∉ turned := fun name hvar hmem =>
    (Loop.notMem_freeNames_of_settled hknown hgrows (fun _ hclear => hclear)
      (horigin name hmem)).2 hvar
  rw [← hrenamed.body] at hsettled
  exact flatMap_blockScopedNames_eq_nil
    (h.declares hbody.stmt (Form.isLexicalDecl_eq_false hbody.form)
    (hrenamed.body ▸ (Node.singlyIn hapart.body hknown.body).mono hgrows) hsettled hclear hsub).1

/-- A class at the top of the body is called like no parameter and no variable of the function. -/
theorem Loop.ExtractsTo.class_apart
    (h : loop.ExtractsTo loopVars outer record options names extraction names')
    (hbody : loop.BodyFits names) (hname : name ∈ loop.body.bodyStmts.flatMap Node.classNames)
    (hvar : name ∉ loop.body.varNames) (hloopVar : name ∉ loopVars)
    (hgives : GivesWay (bodyClash record loopVars) name loop.body.blockDeclares) :
    name ∉ extraction.function.params ∧
      name ∉ varNamesOf (extraction.stmts loop.labelNames options ++
        extraction.function.writeBack) := by
  obtain ⟨stmt, hmem, hclass⟩ := List.mem_flatMap.mp hname
  have htaken : name ∈ names.taken :=
    hbody.known.bodyStmts stmt hmem name (stmt.lexicalNames_subset (stmt.classNames_subset hclass))
  obtain ⟨flat, flattened, drawn, hstages⟩ := h.stages hbody.stmt
  refine ⟨fun hparam => ?_, h.notMem_functionVars hstages htaken
    (hstages.keepsName hbody htaken hvar hgives).2⟩
  rcases h.params_cases name hparam with hnew | ⟨hvar, -⟩
  · exact hnew htaken
  · exact hloopVar hvar

end

/-! ### The head of a loop -/

/-- A declarator that declares a single name does so when it is renamed in the head. -/
theorem Loop.declarators_renameMentioned (mentioned : String → Bool)
    {vars : List String} {loop : Loop} {names : Registry}
    (h : ∀ d ∈ loop.decl.declarators, ∃ name, d.bindingNames = [name]) :
    ∀ d ∈ ((loop.renameMentioned mentioned vars).run names).1.2.decl.declarators,
      ∃ name, d.bindingNames = [name] := by
  induction vars generalizing loop names with
  | nil => exact h
  | cons var vars ih =>
      unfold Loop.renameMentioned
      split
      · refine ih (List.forall_mem_map.mpr fun d hmem => ?_)
        obtain ⟨name, hname⟩ := h d hmem
        unfold Node.rename
        split
        · exact ⟨name, hname⟩
        · exact ⟨_, by rw [Node.bindingNames_substitute, hname, List.map_singleton]⟩
      · exact ih h

theorem forall₂_bindingNames {ds : List Node} (h : ∀ d ∈ ds, ∃ name, d.bindingNames = [name]) :
    List.Forall₂ (fun d name => d.bindingNames = [name]) ds (bindingNamesOf ds) := by
  induction ds with
  | nil => exact .nil
  | cons d ds ih =>
      rw [List.forall_mem_cons] at h
      obtain ⟨name, hname⟩ := h.1
      rw [bindingNamesOf, hname]
      exact .cons hname (ih h.2)

/-- The names that a head is left with are those of its declarators, in order, and each of them is
what the variable was called before, or new. -/
theorem Loop.counters_renameMentioned {mentioned : String → Bool} {loop renamed : Loop}
    {outer : List String} {names between : Registry} (hwf : loop.WellFormed)
    (hheads : ∀ d ∈ loop.decl.declarators, d.declaresName = true)
    (hnodup : loop.decl.names.Nodup) (htaken : loop.decl.names ⊆ names.taken)
    (hrun : (loop.renameMentioned mentioned loop.decl.names).run names =
      ((outer, renamed), between)) :
    renamed.decl.names = outer ∧
      List.Forall₂ (fun declarator counter => declarator.bindingNames = [counter])
        renamed.decl.declarators outer ∧
      List.Forall₂ (fun name counter => counter = name ∨ counter ∉ names.taken)
        loop.decl.names outer := by
  have hlength := loop.length_outer mentioned loop.decl.names names
  have hcases := @Loop.outer_cases mentioned loop.decl.names loop names
  have hnames := @Loop.declNames_renameMentioned mentioned loop.decl.names [] loop
      names rfl hnodup htaken
  have hsingle := @Loop.declarators_renameMentioned mentioned loop.decl.names loop
      names fun d hmem => by
    obtain ⟨_, _, name, _, _, _, _, rfl⟩ :=
      Node.exists_of_declaresName ((Node.isWellFormed_mk.mp hwf.decl).2 d hmem) (hheads d hmem)
    exact ⟨name, rfl⟩
  rw [hrun] at hlength hcases hnames hsingle
  obtain rfl : renamed.decl.names = outer := hnames
  exact ⟨rfl, forall₂_bindingNames hsingle,
    List.forall₂_iff_zip.mpr ⟨hlength.symm, fun hmem => (hcases _ hmem).imp And.left And.left⟩⟩

/-! ### The function of a loop -/

/-- What takes the place of a loop calls a function that has no early errors of its own, with what
its parameters stand for. -/
structure Loop.CallsFunction (loop rebuilt : Loop) (params : List String) (stmts : List Node)
    (functionName : String) (options : Options) (names : Registry) : Prop where
  /-- Each declarator of the head declares one counter, -/
  counters : List.Forall₂ (fun declarator counter => declarator.bindingNames = [counter])
    rebuilt.decl.declarators rebuilt.decl.names
  /-- which is called like the loop variable, or has a new name. -/
  renamed : List.Forall₂ (fun name counter => counter = name ∨ counter ∉ names.taken)
    loop.decl.names rebuilt.decl.names
  /-- The counters are the arguments of the call. -/
  call : ∃ sites resultName, rebuilt.body = JumpSites.dispatch sites
    (.callOf functionName rebuilt.decl.names .generated) resultName options
  /-- At each place of the source where the body refers to a variable, the function refers to its
  parameter. -/
  references : List.Forall₂ (fun name param => stmtReferences param stmts =
    loop.body.references name) loop.decl.names params
  params_nodup : params.Nodup
  /-- What is declared at the top of the function by `let`, `const` or `class` has names of its
  own. -/
  top_nodup : (stmts.flatMap Node.topNames).Nodup
  top_apart : ∀ name ∈ stmts.flatMap Node.topNames, name ∉ params ∧ name ∉ varNamesOf stmts

/-- The function of a loop has no early errors of its own: its parameters have different names,
and what is declared at its top by `let`, `const` or `class` has a name of its own there.  The
i-th parameter stands for the i-th variable of the loop, and the call hands over the counter of
the i-th declarator. No class at the top of the body may be called like a loop variable. -/
theorem Loop.calls_function {stmt : Node} {loop : Loop} {mentioned : String → Bool}
    {options : Options} {names names' : Registry} {replacement : List Node} {report : Report}
    {functionName : String} (hwf : stmt.isWellFormed = true) (hloop : Loop.ofNode? stmt = some loop)
    (hknown : stmt.Known names) (hstmtApart : stmt.declaresApart = true)
    (htop : (loop.body.bodyStmts.flatMap Node.topNames).Nodup)
    (hform : loop.body.form.declaresInBlock = false)
    (hbare : loop.body.everywhere Node.headIsBare = true)
    (harguments : "arguments" ∉ loop.decl.names)
    (hclasses : ∀ name ∈ loop.decl.names, name ∉ loop.body.bodyStmts.flatMap Node.classNames)
    (hlower : (loop.lower mentioned options).Gives names (replacement, report) names')
    (houtcome : report.outcome = .extracted functionName) :
    ∃ before params stmts, ∃ rebuilt : Loop, replacement = before ++
        [.varStmt .generated [(functionName, .functionOf params stmts loop.span)], rebuilt.toNode] ∧
      loop.CallsFunction rebuilt params stmts functionName options names := by
  have hloopWf := Loop.wellFormed_of_ofNode? hloop hwf
  have hloopKnown := Loop.known_of_ofNode? hloop hknown
  have hapart := Loop.declaresApart_of_ofNode? hloop hstmtApart
  have htaken := hloopKnown.declNames
  have hheads := (Loop.keeps_of_gives hlower).1
  obtain ⟨outer, renamed, between, extraction, hrename, hextracts, rfl, rfl⟩ :=
    Loop.exists_extractsTo hlower houtcome
  have hrenamed := Loop.Renamed.renameMentioned mentioned loop.decl.names hloopWf names
  have hrenamedKnown := (hloopKnown.renameMentioned mentioned htaken).2
  have houter := loop.outer_renameMentioned mentioned names hapart.head htaken
  obtain ⟨rfl, hsingle, hcases⟩ :=
    Loop.counters_renameMentioned hloopWf hheads hapart.head htaken hrename
  rw [hrename] at hrenamed hrenamedKnown houter
  obtain ⟨-, -, houterTaken, hgrows⟩ := houter
  have hvars : ∀ name ∈ loop.decl.names, name ∈ between.taken ∧ name ∉ renamed.body.varNames ∧
      name ≠ "arguments" := fun name hmem =>
    ⟨hgrows (htaken name hmem), hrenamed.body ▸ hapart.vars name hmem,
      ne_of_mem_of_not_mem hmem harguments⟩
  have hfits : renamed.BodyFits between := ⟨hrenamed.wellFormed.body, hrenamed.body ▸ hform,
    hrenamed.body ▸ hbare, hrenamed.body ▸ Loop.varsNamed_body hextracts.isBound_eq_false,
    hrenamedKnown.body⟩
  have hlets := Loop.ExtractsTo.blockScopedNames hrenamed hextracts hfits hloopWf.body.2
      hapart hloopKnown hgrows
  have hclassNames := hextracts.classNames hfits (fun name hmem => (hvars name hmem).1)
    (fun name hmem => houterTaken hmem) (hrenamed.body ▸ htop) (hrenamed.body ▸ hclasses)
  have htopNames : (extraction.stmts renamed.labelNames options ++
      extraction.function.writeBack).flatMap Node.topNames =
        loop.body.bodyStmts.flatMap Node.classNames := by
    rw [← hrenamed.body, ← hclassNames]
    refine List.flatMap_congr fun stmt hmem => ?_
    rw [Node.topNames, List.flatMap_eq_nil_iff.mp hlets stmt hmem, List.nil_append]
  obtain ⟨hnodup, hreferences⟩ :=
    hextracts.references hfits hvars (fun name hmem => houterTaken hmem)
    hapart.head (Nat.le_of_eq hcases.length_eq)
  have hreplacement := extraction.replacement_eq renamed renamed.decl.names loop.capture options
  rw [Extraction.functionExpr, hrenamed.span] at hreplacement
  refine ⟨_, _, _, _, hreplacement, hsingle, hcases, ⟨extraction.sites, extraction.resultName, rfl⟩,
    hrenamed.body ▸ hreferences, hnodup, ?_, fun name hname => ?_⟩
  · rw [htopNames]
    have hperm := List.flatMap_append_perm loop.body.bodyStmts Node.blockScopedNames Node.classNames
    exact List.Nodup.of_append_right (hperm.nodup_iff.mpr htop)
  · rw [htopNames] at hname
    refine hextracts.class_apart hfits (hrenamed.body ▸ hname) ?_
      (fun hmem => hclasses name hmem hname) ?_
    · exact hrenamed.body ▸ Node.notMem_varNames_of_class hapart.body hform hname
    · rw [hrenamed.body]
      exact Loop.givesWay_class hloopWf.body.2 hapart htop hform loop.decl.names hname

/-- The loop

    for (let declarators head) { class className {} fns.push(() => value); }
-/
def classLoop (declarators : List Node) (head : LoopHead) (className : String)
    (value : Node) : Loop where
  labels := []
  span := .generated
  decl := ⟨.lexical false, false, .generated, declarators⟩
  head := head
  body := .block .generated
    [.mk (.classDecl false) .generated [.mk (.ident .title className false) .generated [],
        .mk (.classBody false) .generated [.list [], .list [], .absent]],
      .exprStmt (.mk .call .generated [.memberOf (.use "fns" .generated) "push" .generated,
        .list [.mk (.arg none) .generated
          [.mk (.arrow false false) .generated [.list [], value, .absent]]]])]

/-- The loop

    for (let x = 0, y = 9; ; ) { class K {} fns.push(() => x = y); }
-/
def countedLoop : Loop :=
  classLoop [.declarator false .generated (.binding "x" false .generated .absent)
        (.mk (.number 0 none) .generated []),
      .declarator false .generated (.binding "y" false .generated .absent)
      (.mk (.number 9 none) .generated [])]
    (.plain .absent .absent) "K" (.mk (.assign "=") ⟨57, 62⟩
      [.binding "x" false ⟨57, 58⟩ .absent, .use "y" ⟨61, 62⟩])

/-- The loop

    for (let x of xs) { class className {} fns.push(() => x); }
-/
def shadowingLoop (className : String) : Loop :=
  classLoop [.declarator false .generated (.binding "x" false .generated .absent) .absent]
    (.values false (.use "xs" .generated)) className (.use "x" ⟨49, 50⟩)

/-- The names of these loops. -/
def classLoopNames : Registry := ⟨["x", "y", "xs", "fns", "K"], []⟩

/-- The assignment is to the parameter of `x`, from that of `y`. -/
theorem countedLoop_calls_function : ∃ replacement report names' before params stmts,
    ∃ rebuilt : Loop, (countedLoop.lower (· == "y") {}).Gives classLoopNames
      (replacement, report) names' ∧
      replacement = before ++
        [.varStmt .generated [("loop", .functionOf params stmts .generated)], rebuilt.toNode] ∧
      countedLoop.CallsFunction rebuilt params stmts "loop" {} classLoopNames ∧
      countedLoop.body.references "x" = [⟨57, 58⟩] ∧
      countedLoop.body.references "y" = [⟨61, 62⟩] := by
  obtain ⟨replacement, report, names', hlower, houtcome⟩ : ∃ replacement report names',
      (countedLoop.lower (· == "y") {}).Gives classLoopNames (replacement, report) names' ∧
        report.outcome = .extracted "loop" := ⟨_, _, _, rfl, rfl⟩
  obtain ⟨before, params, stmts, rebuilt, hreplacement, hcalls⟩ :=
    Loop.calls_function (by decide +kernel) (Loop.ofNode?_toNode _ rfl)
    (by unfold Node.Known; decide +kernel) (by decide +kernel) (by decide +kernel)
    (by decide +kernel) (by decide +kernel) (by decide +kernel) (by decide +kernel) hlower houtcome
  exact ⟨replacement, report, names', before, params, stmts, rebuilt, hlower, hreplacement, hcalls,
    by decide +kernel, by decide +kernel⟩

/-- A class that is called like the loop variable stays what it is, at the top of a function with a
parameter of its name. -/
theorem shadowingLoop_clashes : ∃ replacement report names' stmts,
    (shadowingLoop "x").toNode.isWellFormed = true ∧
      (shadowingLoop "x").toNode.declaresApart = true ∧
      ((shadowingLoop "x").body.bodyStmts.flatMap Node.topNames).Nodup ∧
      ((shadowingLoop "x").lower (fun _ => false) {}).Gives classLoopNames
      (replacement, report) names' ∧
      .varStmt .generated [("loop", .functionOf ["x"] stmts .generated)] ∈ replacement ∧
      stmts.flatMap Node.topNames = ["x"] :=
  ⟨_, _, _, _, by decide +kernel, by decide +kernel, by decide +kernel, rfl, List.mem_cons_self,
    by decide +kernel⟩

end LoopLowering
