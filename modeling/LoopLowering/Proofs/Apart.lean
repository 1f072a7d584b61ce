/-
Variables that came from different declarations have different names.

Flattening makes variables of one function out of the `let` and `const` of all blocks of a loop
body. A name that two blocks declare clashes, so of what is left each name is declared once, and
the rest have new names.  For this the analysis has to count every block that is flattened: it
reads the blocks in the order in which they stand, and declares for each block what
`Node.blockDeclares` lists (`count_blockDeclares_le`).

What is turned into variables also keeps away from the free names of the loop, hence from what the
body declares by `var`: the analysis reads a `var` as a name, and it is free unless something in
the body binds it.  In a program without early errors only a `catch` clause can do that.
-/
import LoopLowering.Proofs.Blocks
import LoopLowering.Proofs.Enclosing
import LoopLowering.Proofs.Writes

namespace LoopLowering

/-! ### Jumps and write-backs -/

theorem Node.declares_redirect (redirection : Redirection) (ctx : JumpContext) {node : Node}
    (hwf : node.isWellFormed = true) : (node.redirect redirection ctx).declares =
      node.declares := by
  obtain ⟨form, span, parts⟩ := node
  by_cases h : ∃ kind declare, form = .varDecl kind declare
  · obtain ⟨kind, declare, rfl⟩ := h
    rw [Node.redirect_of_isQuiet redirection ctx hwf rfl]
  · have hform : ∀ kind declare, form ≠ .varDecl kind declare := fun kind declare e =>
      h ⟨kind, declare, e⟩
    rw [Node.declares_eq_nil (.mk form span parts) hform]
    refine Node.declares_eq_nil _ ?_
    unfold Node.redirect
    split
    · exact hform
    split
    · split
      · exact fun _ _ e => by cases e
      · exact hform
    · split
      · rcases redirection.form_continueStmt span with hblock | hreturn
        · exact fun _ _ e => by cases hblock.symm.trans e
        · exact fun _ _ e => by cases hreturn.symm.trans e
      · exact hform
    · exact fun _ _ e => by cases e
    · exact hform

/-- A statement made of quiet parts has no blocks. -/
theorem Node.blockDeclares_of_isQuiet_slots {form : Form} {span : Span} {parts : List Node}
    (hform : form ≠ .list ∧ form ≠ .block) (hslots : form.shape.slots.all Slot.isQuiet = true)
    (hwf : (Node.mk form span parts).isWellFormed = true) :
    (Node.mk form span parts).blockDeclares = [] := by
  obtain ⟨hshape, hparts⟩ := Node.isWellFormed_mk.mp hwf
  refine Node.blockDeclares_eq_nil hform.2 fun _ part hmem => ?_
  obtain ⟨slot, hslot, hadmits⟩ := Shape.exists_slot (hshape.resolve_left hform.1) hmem
  have hquiet := List.all_eq_true.mp hslots slot hslot
  rw [Slot.isQuiet, Bool.and_eq_true, Bool.not_eq_true'] at hquiet
  exact Node.blockDeclares_of_admits (hparts part hmem) hadmits hquiet.1 (by simpa using hquiet.2)

/-- A statement that declares nothing, neither itself nor in a block. -/
def Node.DeclaresNothing (stmt : Node) : Prop := stmt.declares = [] ∧ stmt.blockDeclares = []

theorem stmtsDeclare_append_nothing (stmts : List Node) {more : List Node}
    (h : ∀ stmt ∈ more, stmt.DeclaresNothing) : stmtsDeclare (stmts ++ more) =
      stmtsDeclare stmts := by
  have hown : more.flatMap Node.declares = [] :=
    List.flatMap_eq_nil_iff.mpr fun stmt hmem => (h stmt hmem).1
  have hblocks : more.flatMap Node.blockDeclares = [] :=
    List.flatMap_eq_nil_iff.mpr fun stmt hmem => (h stmt hmem).2
  rw [stmtsDeclare, stmtsDeclare, blockDeclaresIn_eq_flatMap, blockDeclaresIn_eq_flatMap,
    List.flatMap_append, List.flatMap_append, hown, hblocks, List.append_nil, List.append_nil]

/-- Copying parameters back declares nothing. -/
theorem writeBackOf_declaresNothing (pairs : List (String × String)) :
    ∀ stmt ∈ writeBackOf pairs, stmt.DeclaresNothing := by
  intro stmt hmem
  obtain ⟨pair, -, rfl⟩ := List.mem_map.mp hmem
  exact ⟨rfl, Node.blockDeclares_exprStmt (Node.isExpr_assignTo (Node.isExpr_use _) _)⟩

theorem flatten_blockDeclaresIn_map {nodes : List Node} {change : Node → Node}
    (h : ∀ node ∈ nodes, (change node).blockDeclares.flatten = node.blockDeclares.flatten) :
    (blockDeclaresIn (nodes.map change)).flatten = (blockDeclaresIn nodes).flatten := by
  induction nodes with
  | nil => rfl
  | cons node nodes ih =>
      rw [List.forall_mem_cons] at h
      rw [List.map_cons, blockDeclaresIn, blockDeclaresIn, List.flatten_append, List.flatten_append,
        h.1, ih h.2]

section

variable {pairs : List (String × String)} {options : Options}

/-- Nor does what a `continue` becomes. -/
theorem Redirection.blockDeclares_continueStmt (span : Span) :
    (Redirection.continueStmt ⟨writeBackOf pairs, options⟩ span).blockDeclares.flatten = [] := by
  have hreturn : (Completion.normal.toReturn options span).DeclaresNothing :=
    ⟨rfl, Node.blockDeclares_of_isQuiet_slots (by simp) rfl rfl⟩
  unfold Redirection.continueStmt
  split
  · exact congrArg List.flatten hreturn.2
  · rw [Node.blockDeclares_block, ← List.nil_append (_ ++ _), stmtsDeclare_append_nothing []]
    · rfl
    · exact List.forall_mem_append.mpr ⟨writeBackOf_declaresNothing pairs,
        List.forall_mem_singleton.mpr hreturn⟩

/-- Redirecting jumps leaves what is declared. -/
theorem Node.blockDeclares_redirect (ctx : JumpContext) {node : Node}
    (hwf : node.isWellFormed = true) :
    (node.redirect ⟨writeBackOf pairs, options⟩ ctx).blockDeclares.flatten =
      node.blockDeclares.flatten := by
  have hback : ∀ stmt ∈ writeBackOf pairs, stmt.IsPlainStmt := by
    intro stmt hmem
    obtain ⟨pair, -, rfl⟩ := List.mem_map.mp hmem
    exact isPlainStmt_copyStmt
  induction node using Node.inductionOn generalizing ctx with
  | step form span parts ih =>
      have hwfParts : ∀ part ∈ parts, part.isWellFormed = true :=
        fun part hmem => Node.isWellFormed_part hwf hmem
      -- The jumps and what they become have nothing but an expression in them.
      have hjump : ∀ {form : Form} {span : Span} {parts : List Node}, form.isJump = true →
          (Node.mk form span parts).isWellFormed = true →
          (Node.mk form span parts).blockDeclares = [] := by
        intro form span parts hjump hwf
        unfold Form.isJump at hjump
        split at hjump
        · exact Node.blockDeclares_of_isQuiet_slots (by simp) rfl hwf
        · exact Node.blockDeclares_of_isQuiet_slots (by simp) rfl hwf
        · exact Node.blockDeclares_of_isQuiet_slots (by simp) rfl hwf
        · cases hjump
      suffices h : ∀ after, (Node.mk form span parts).redirect
        ⟨writeBackOf pairs, options⟩ ctx = after →
          after.isWellFormed = true →
            after.blockDeclares.flatten = (Node.mk form span parts).blockDeclares.flatten from
        h _ rfl (Node.Stands.redirect hback ctx hwf).wellFormed
      intro after hafter hwfAfter
      unfold Node.redirect at hafter
      split at hafter
      · subst hafter
        rfl
      split at hafter
      · split at hafter
        · subst hafter
          rw [hjump rfl hwf]
          exact congrArg List.flatten (hjump rfl hwfAfter)
        · subst hafter
          rfl
      · split at hafter
        · subst hafter
          rw [hjump rfl hwf, Redirection.blockDeclares_continueStmt]
          rfl
        · subst hafter
          rfl
      · subst hafter
        rw [hjump rfl hwf]
        exact congrArg List.flatten (hjump rfl hwfAfter)
      · subst hafter
        have hloop : (Node.mk form span (parts.map
            (Node.redirect ⟨writeBackOf pairs, options⟩ (ctx.enter form)))).isBlockLoop =
              (Node.mk form span parts).isBlockLoop :=
          Node.isBlockLoop_congr (List.forall₂_map_right_iff.mpr (List.forall₂_same.mpr
            fun part hmem => (Node.Stands.redirect hback _ (hwfParts part hmem)).lexical))
        have hparts : (blockDeclaresIn (parts.map
            (Node.redirect ⟨writeBackOf pairs, options⟩ (ctx.enter form)))).flatten =
              (blockDeclaresIn parts).flatten :=
          flatten_blockDeclaresIn_map fun part hmem => ih part hmem _ (hwfParts part hmem)
        rw [redirectIn_eq_map, Node.blockDeclares, Node.blockDeclares, hloop]
        split
        · rfl
        split
        · rw [List.flatten_cons, List.flatten_cons, hparts, List.flatMap_map]
          exact congrArg (· ++ _) (List.flatMap_congr fun part hmem =>
            Node.declares_redirect _ _ (hwfParts part hmem))
        · exact hparts

/-- The statements of a function declare what they did before their jumps were redirected. -/
theorem stmtsDeclare_redirectIn (ctx : JumpContext) {stmts : List Node}
    (hwf : ∀ stmt ∈ stmts, stmt.isWellFormed = true) :
    (stmtsDeclare (redirectIn ⟨writeBackOf pairs, options⟩ ctx stmts)).flatten =
      (stmtsDeclare stmts).flatten := by
  rw [stmtsDeclare, stmtsDeclare, List.flatten_cons, List.flatten_cons, redirectIn_eq_map,
    flatten_blockDeclaresIn_map fun stmt hmem => Node.blockDeclares_redirect ctx (hwf stmt hmem),
    List.flatMap_map, List.flatMap_congr fun stmt hmem =>
      Node.declares_redirect _ ctx (hwf stmt hmem)]

end

/-- Naming `this` and `arguments` leaves what is declared. -/
theorem stmtsDeclare_useAliasesIn (aliases : Aliases) {stmts : List Node}
    (hwf : ∀ stmt ∈ stmts, stmt.isWellFormed = true) :
    stmtsDeclare (useAliasesIn aliases stmts) = stmtsDeclare stmts := by
  rw [stmtsDeclare, stmtsDeclare, blockDeclaresIn_eq_flatMap, blockDeclaresIn_eq_flatMap,
    useAliasesIn_eq_map, List.flatMap_map, List.flatMap_map,
    List.flatMap_congr fun stmt _ => stmt.declares_useAliases aliases,
    List.flatMap_congr fun stmt hmem => Node.blockDeclares_useAliases aliases (hwf stmt hmem)]

/-- Giving parameters their names leaves what is declared, if none of the variables is. -/
theorem stmtsDeclare_chooseParams {writtenBack : String → Bool} {vars : List (String × String)}
    {stmts : List Node} {declared : List String} (names : Registry)
    (hwf : ∀ stmt ∈ stmts, stmt.isWellFormed = true)
    (hdeclared : (stmtsDeclare stmts).flatten = declared.map (VarKind.var, ·))
    (hapart : ∀ var ∈ vars, var.1 ∉ declared) :
    (stmtsDeclare ((chooseParams writtenBack vars stmts).run names).1.stmts).flatten =
      declared.map (VarKind.var, ·) := by
  induction vars generalizing stmts names with
  | nil => exact hdeclared
  | cons var vars ih =>
      obtain ⟨name, outer⟩ := var
      rw [List.forall_mem_cons] at hapart
      unfold chooseParams
      split
      · refine ih _ (List.forall_mem_map.mpr fun stmt hmem =>
          (Node.Stands.rename name _ (hwf stmt hmem)).wellFormed) ?_ hapart.2
        rw [stmtsDeclare, List.flatten_cons] at hdeclared ⊢
        have hname : ∀ d ∈ stmts.flatMap Node.declares ++ (blockDeclaresIn stmts).flatten,
            d.2 ≠ name := by
          rw [hdeclared]
          intro d hmem heq
          obtain ⟨other, hother, rfl⟩ := List.mem_map.mp hmem
          exact hapart.1 (heq ▸ hother)
        have hown : (stmts.map (·.rename name (names.fresh name).1)).flatMap Node.declares =
            stmts.flatMap Node.declares := by
          rw [Node.flatMap_declares_map fun stmt _ =>
            stmt.declares_rename name (names.fresh name).1]
          refine (List.map_congr_left fun d hmem => ?_).trans (List.map_id _)
          simp only [Prod.map, id_eq, if_neg (hname d (List.mem_append_left _ hmem))]
        have hblocks : blockDeclaresIn (stmts.map (·.rename name (names.fresh name).1)) =
            blockDeclaresIn stmts :=
          (Redeclares.rename_stmts name _ hwf).eq_of_notMem fun hmem =>
            hname _ (List.mem_append_right _ hmem) rfl
        exact (congrArg₂ (· ++ List.flatten ·) hown hblocks).trans hdeclared
      · exact ih names hwf hdeclared hapart.2

/-! ### Early errors -/

/-- The names a block or the head of a loop declares by `let` and `const`. -/
def Node.letNames : Node → List String
  | .mk .block _ stmts => stmts.flatMap Node.blockScopedNames
  | node => node.headNames

/-- Whether a node declares each name by `let` and `const` once, and no `var` in it has a name
that it binds.  A `var` may have the name of what a catch clause caught. -/
def Node.bindsOnce (node : Node) : Bool :=
  decide node.letNames.Nodup &&
    (decide (node.form = .catchClause) || node.scopeNames.all fun name =>
      decide (name ∉ node.varNames))

mutual

/-- Whether no scope of a tree declares a name that it declares already, closures left out. -/
def Node.declaresApart : Node → Bool
  | .mk form span parts =>
    form.isClosure || ((Node.mk form span parts).bindsOnce && declaresApartIn parts)

/-- Whether no scope of a list of trees declares a name that it declares already. -/
def declaresApartIn : List Node → Bool
  | [] => true
  | node :: nodes => node.declaresApart && declaresApartIn nodes

end

theorem declaresApartIn_eq_all (nodes : List Node) :
    declaresApartIn nodes = nodes.all Node.declaresApart := by
  induction nodes with
  | nil => rfl
  | cons node nodes ih => rw [declaresApartIn, ih, List.all_cons]

theorem Node.declaresApart_mk {form : Form} {span : Span} {parts : List Node}
    (h : (Node.mk form span parts).declaresApart = true) (hclosure : form.isClosure = false) :
    (Node.mk form span parts).bindsOnce = true ∧ ∀ part ∈ parts, part.declaresApart = true := by
  rw [Node.declaresApart, hclosure, Bool.false_or, Bool.and_eq_true, declaresApartIn_eq_all,
    List.all_eq_true] at h
  exact h

theorem Node.bindsOnce_iff {node : Node} : node.bindsOnce = true ↔
    node.letNames.Nodup ∧ (node.form = .catchClause ∨ ∀ name ∈ node.scopeNames,
      name ∉ node.varNames) := by
  simp [Node.bindsOnce]

/-- In each block, the names by `let` and `const` are different. -/
theorem Node.HasBlock.nodup {node : Node} {stmts : List Node} (h : node.HasBlock stmts)
    (hapart : node.declaresApart = true) : (stmts.flatMap Node.blockScopedNames).Nodup := by
  induction h with
  | here => exact (Node.bindsOnce_iff.mp (Node.declaresApart_mk hapart rfl).1).1
  | inside hclosure _ hmem _ ih => exact ih ((Node.declaresApart_mk hapart hclosure).2 _ hmem)

theorem Node.HasBlock.known {node : Node} {stmts : List Node} (h : node.HasBlock stmts)
    {names : Registry} (hknown : node.Known names) : ∀ stmt ∈ stmts, stmt.Known names := by
  induction h with
  | here => exact fun stmt hmem => hknown.part hmem
  | inside _ _ hmem _ ih => exact ih (hknown.part hmem)

/-- What the blocks of a tree declare is known, and different in each of them. -/
theorem Node.singlyIn {node : Node} (hapart : node.declaresApart = true) {names : Registry}
    (hknown : node.Known names) : SinglyIn names node.blockDeclares := by
  intro declared hmem
  obtain ⟨stmts, hblock, rfl⟩ := Node.exists_hasBlock hmem
  rw [← flatMap_blockScopedNames_eq_letsOf]
  refine ⟨hblock.nodup hapart, fun name hname => ?_⟩
  obtain ⟨stmt, hstmt, hname⟩ := List.mem_flatMap.mp hname
  exact hblock.known hknown stmt hstmt _ (stmt.blockScopedNames_subset hname)

/-! ### What the analysis counts -/

namespace Capture

/-- A record that collects the names of some findings has each as often as it was found. -/
theorem count_collected {findings : List Finding} {pick : Finding → Option String} {name : String}
    {sought : Finding} (hpick : ∀ finding, pick finding = some name ↔ finding = sought) :
    (findings.filterMap pick).count name = findings.count sought := by
  rw [List.count_filterMap]
  refine List.countP_congr fun finding _ => ?_
  simp [hpick]

/-- A block of one iteration shows what it declares. -/
theorem Context.InIteration.count_declarations {ctx : Context} (h : ctx.InIteration)
    {names : List String} {name : String} (hname : name ∈ names) :
    1 ≤ (ctx.declarations names).count (.declared name) := by
  have hfound : Finding.declared name ∈ ctx.declarations names := by
    unfold Context.declarations
    rcases h.blockOrigin with horigin | horigin
    · rw [horigin]
      exact List.mem_map_of_mem (mem_foldl_addName.mpr (Or.inr hname))
    · rw [horigin]
      exact List.mem_map_of_mem (mem_foldl_addName.mpr (Or.inr hname))
  exact List.count_pos_iff.mpr hfound

/-- What holds of each tree of a list holds of the list. -/
theorem count_blockDeclaresIn_le {nodes : List Node} {ctx : Context} {name : String}
    (h : ∀ node ∈ nodes,
      (letsOf node.blockDeclares.flatten).count name ≤ (findings ctx node).count (.declared name)) :
    (letsOf (blockDeclaresIn nodes).flatten).count name ≤ (findingsIn ctx nodes).count
      (.declared name) := by
  induction nodes with
  | nil => exact Nat.zero_le _
  | cons node nodes ih =>
      rw [List.forall_mem_cons] at h
      rw [blockDeclaresIn, findingsIn, List.flatten_append, letsOf_append, List.count_append,
        List.count_append]
      exact Nat.add_le_add h.1 (ih h.2)

/-- The blocks of one iteration declare a name no more often than the analysis finds it declared. -/
theorem count_blockDeclares_le {node : Node} (hwf : node.isWellFormed = true)
    (hapart : node.declaresApart = true) {ctx : Context} (hctx : ctx.InIteration) (name : String) :
    (letsOf node.blockDeclares.flatten).count name ≤ (findings ctx node).count
      (.declared name) := by
  induction node using Node.inductionOn generalizing ctx with
  | step form span parts ih =>
      rw [Node.blockDeclares]
      split
      · exact Nat.zero_le _
      · next hopen =>
        rw [Bool.not_eq_true, Bool.or_eq_false_iff] at hopen
        obtain ⟨hown, hparts⟩ := Node.declaresApart_mk hapart hopen.1
        have hwfParts : ∀ part ∈ parts, part.isWellFormed = true :=
          fun part hmem => Node.isWellFormed_part hwf hmem
        have hinside : (letsOf (blockDeclaresIn parts).flatten).count name ≤
            (findingsIn (ctx.enter (.mk form span parts)) parts).count (.declared name) :=
          count_blockDeclaresIn_le fun part hmem =>
            ih part hmem (hwfParts part hmem) (hparts part hmem) (hctx.enter hwf hopen.1 hopen.2)
        rw [findings, List.count_append]
        split
        · next hblock =>
          subst hblock
          rw [List.flatten_cons, letsOf_append, List.count_append]
          refine Nat.add_le_add ?_ hinside
          rw [← flatMap_blockScopedNames_eq_letsOf]
          by_cases hname : name ∈ parts.flatMap Node.blockScopedNames
          · have honce := List.nodup_iff_count_le_one.mp (Node.bindsOnce_iff.mp hown).1 name
            refine Nat.le_trans honce (hctx.count_declarations ?_)
            obtain ⟨stmt, hmem, hname⟩ := List.mem_flatMap.mp hname
            exact List.mem_flatMap.mpr ⟨stmt, hmem, stmt.blockScopedNames_subset_lexicalNames hname⟩
          · rw [List.count_eq_zero_of_not_mem hname]
            exact Nat.zero_le _
        · exact Nat.le_trans hinside (Nat.le_add_left _ _)

end Capture

/-! ### Declarations by `var` -/

/-- What a pattern binds is written in it, and nothing in between binds it. -/
theorem Node.exists_occurs_of_bindingNames {name : String} {node : Node}
    (h : name ∈ node.bindingNames) :
    ∃ path, node.Occurs name path ∧ UnboundOn name path := by
  induction node using Node.inductionOn with
  | step form span parts ih =>
      have hinside : ∀ part ∈ parts, name ∈ part.bindingNames →
          ¬ (Node.mk form span parts).Binds name →
          ∃ path, (Node.mk form span parts).Occurs name path ∧ UnboundOn name path := by
        intro part hmem hname hbinds
        obtain ⟨path, hoccurs, hunbound⟩ := ih part hmem hname
        exact ⟨_ :: path, .inside hmem hoccurs, List.forall_mem_cons.mpr ⟨hbinds, hunbound⟩⟩
      have hsilent : (Node.mk form span parts).scopeNames = [] → form.boundary = .block →
          ¬ (Node.mk form span parts).Binds name := by
        rintro hscope hboundary (hname | ⟨-, hfunction⟩)
        · rw [hscope] at hname
          cases hname
        · cases hboundary.symm.trans hfunction
      unfold Node.bindingNames at h
      split at h
      case h_1 heq =>
        cases heq
        rw [List.mem_singleton.mp h]
        exact ⟨[], .here, fun node hmem => absurd hmem List.not_mem_nil⟩
      case h_2 heq =>
        cases heq
        rw [bindingNamesOf_eq_flatMap] at h
        obtain ⟨part, hmem, h⟩ := List.mem_flatMap.mp h
        exact hinside part hmem h (hsilent rfl rfl)
      case h_12 => cases h
      all_goals
        next heq =>
        cases heq
        exact hinside _ (by simp) h (hsilent rfl rfl)

section

variable {name : String} {path : List Node} {tree node : Node}

/-- What is declared by `var` outside closures is declared by `var` in the tree. -/
theorem Node.LiesIn.mem_varNames (h : node.LiesIn path tree) (hwf : tree.isWellFormed = true)
    (hdeclares : (VarKind.var, name) ∈ node.declares) (hopen : ¬ Crosses path) :
    name ∈ tree.varNames := by
  induction h with
  | self =>
      unfold Node.declares at hdeclares
      split at hdeclares
      · obtain ⟨other, hmem, heq⟩ := List.mem_map.mp hdeclares
        cases heq
        rw [Node.varNames, if_neg (by simp [Form.isClosure])]
        exact hmem
      · cases hdeclares
  | @part form span parts path part hmem _ ih =>
      rw [Crosses, List.exists_mem_cons_iff, not_or] at hopen
      have hpart := ih (Node.isWellFormed_part hwf hmem) hopen.2
      by_contra hname
      exact Node.notMem_varNames_part hwf (by simpa [Node.form] using hopen.1) hname hmem hpart

/-- Where no scope declares a name twice, the name of a `var` is bound around it by nothing but
what a catch clause caught. -/
theorem Node.LiesIn.form_of_scopeNames (h : node.LiesIn path tree) (hwf : tree.isWellFormed = true)
    (hapart : tree.declaresApart = true) (hdeclares : (VarKind.var, name) ∈ node.declares)
    (hopen : ¬ Crosses path) : ∀ outer ∈ path, name ∈ outer.scopeNames →
      outer.form = .catchClause := by
  induction h with
  | self => exact fun outer hmem => absurd hmem List.not_mem_nil
  | @part form span parts path part hmem hlies ih =>
      have hvar := (Node.LiesIn.part hmem hlies).mem_varNames hwf hdeclares hopen
      rw [Crosses, List.exists_mem_cons_iff, not_or] at hopen
      obtain ⟨hown, hparts⟩ := Node.declaresApart_mk hapart (by simpa [Node.form] using hopen.1)
      refine List.forall_mem_cons.mpr ⟨fun hname => ?_,
        ih (Node.isWellFormed_part hwf hmem) (hparts part hmem) hopen.2⟩
      exact (Node.bindsOnce_iff.mp hown).2.resolve_right fun hdisjoint => hdisjoint name hname hvar

/-- A name that is declared by `var` is written there. -/
theorem Node.LiesIn.exists_occurs (h : node.LiesIn path tree)
    (hdeclares : (VarKind.var, name) ∈ node.declares) (hunbound : UnboundOn name path) :
    ∃ path, tree.Occurs name path ∧ UnboundOn name path := by
  induction h with
  | self =>
      unfold Node.declares at hdeclares
      split at hdeclares
      · obtain ⟨other, hmem, heq⟩ := List.mem_map.mp hdeclares
        cases heq
        rw [bindingNamesOf_eq_flatMap] at hmem
        obtain ⟨declarator, hdeclarator, hmem⟩ := List.mem_flatMap.mp hmem
        obtain ⟨inner, hoccurs, hinner⟩ := Node.exists_occurs_of_bindingNames hmem
        refine ⟨_ :: inner, .inside hdeclarator hoccurs, List.forall_mem_cons.mpr ⟨?_, hinner⟩⟩
        rintro (hname | ⟨-, hfunction⟩)
        · cases hname
        · cases hfunction
      · cases hdeclares
  | @part form span parts path part hmem _ ih =>
      rw [UnboundOn, List.forall_mem_cons] at hunbound
      obtain ⟨inner, hoccurs, hinner⟩ := ih hunbound.2
      exact ⟨_ :: inner, .inside hmem hoccurs, List.forall_mem_cons.mpr ⟨hunbound.1, hinner⟩⟩

end

theorem Node.Occurs.mem_names {name : String} {path : List Node} {tree : Node}
    (h : tree.Occurs name path) : name ∈ tree.names := by
  induction h with
  | here => simp [Node.names, Form.names]
  | inside hpart _ ih =>
      rw [Node.names, namesOf_eq_flatMap]
      exact List.mem_append_right _ (List.mem_flatMap.mpr ⟨_, hpart, ih⟩)

/-! ### The declarations of a loop -/

/-- The free names of a loop are known with it. -/
theorem Loop.Known.freeNames {loop : Loop} {names : Registry} (h : loop.Known names) :
    ∀ name ∈ loop.capture.freeNames, name ∈ names.taken := by
  intro name hname
  rw [Loop.mem_freeNames, Loop.free_mem_findings_iff] at hname
  obtain ⟨part, hpart, path, hoccurs, -⟩ := hname
  have hdecl : loop.decl.toNode.Known names := (Node.known_parts rfl).mpr h.declarators
  have hparts : part.Known names := by
    simp only [List.cons_append, List.mem_cons, List.mem_append, List.not_mem_nil,
      or_false] at hpart
    rcases hpart with rfl | hexpr | rfl
    · exact hdecl
    · exact h.exprs part hexpr
    · exact h.body
  exact hparts name hoccurs.mem_names

/-- No scope of a loop declares a name twice. -/
structure Loop.DeclaresApart (loop : Loop) : Prop where
  head : loop.decl.names.Nodup
  vars : ∀ name ∈ loop.decl.names, name ∉ loop.body.varNames
  body : loop.body.declaresApart = true

theorem Loop.declaresApart_toUnlabeled {loop : Loop} (hkind : loop.decl.kind.isBlockScoped = true)
    (h : loop.toUnlabeled.declaresApart = true) : loop.DeclaresApart := by
  obtain ⟨labels, span, ⟨kind, declare, declSpan, declarators⟩, head, body⟩ := loop
  cases kind with
  | var => cases hkind
  | lexical constant =>
      rw [Loop.toUnlabeled_eq] at h
      obtain ⟨hown, hparts⟩ := Node.declaresApart_mk h (by cases head <;> rfl)
      obtain ⟨hnodup, hvars⟩ := Node.bindsOnce_iff.mp hown
      have hvars := hvars.resolve_left (by cases head <;> simp [Node.form, LoopHead.form])
      refine ⟨?_, fun name hname hvar => hvars name ?_ ?_, hparts body (by simp)⟩
      · cases head with
        | _ => exact hnodup
      · cases head with
        | _ => exact hname
      · have hinside : ∀ parts, (Node.mk head.form span parts).varNames = varNamesOf parts := by
          intro parts
          cases head with
          | _ => rfl
        rw [hinside, varNamesOf_eq_flatMap]
        exact List.mem_flatMap.mpr ⟨body, by simp, hvar⟩

theorem Loop.declaresApart_of_ofNode? {stmt : Node} {loop : Loop}
    (h : Loop.ofNode? stmt = some loop) (hapart : stmt.declaresApart = true) :
    loop.DeclaresApart := by
  fun_induction Loop.ofNode? stmt generalizing loop with
  | case1 label span body ih =>
      obtain ⟨inner, hinner, rfl⟩ := Option.map_eq_some_iff.mp h
      have hbody := (Node.declaresApart_mk hapart rfl).2 body List.mem_cons_self
      obtain ⟨hhead, hvars, hinside⟩ := ih hinner hbody
      exact ⟨hhead, hvars, hinside⟩
  | case2 | case3 | case4 =>
      cases h
      exact Loop.declaresApart_toUnlabeled rfl hapart
  | case5 => cases h

/-- What a loop body declares by `var` is free in the loop, unless a catch clause has caught
something of that name. -/
theorem Loop.mem_freeNames_of_var {loop : Loop} (hwf : loop.body.isWellFormed = true)
    (hapart : loop.DeclaresApart) {name : String} {path : List Node} {node : Node}
    (h : node.LiesIn path loop.body) (hopen : ¬ Crosses path)
    (hdeclares : (VarKind.var, name) ∈ node.declares)
    (hcaught : ∀ clause ∈ path, clause.form = .catchClause → name ∉ clause.scopeNames) :
    name ∈ loop.capture.freeNames := by
  have hunbound : UnboundOn name path := by
    rintro outer hmem (hname | ⟨-, hfunction⟩)
    · exact hcaught outer hmem (h.form_of_scopeNames hwf hapart.body hdeclares hopen
        outer hmem hname) hname
    · have hboundary := outer.form.boundary_bne_block
      rw [hfunction] at hboundary
      exact hopen ⟨outer, hmem, hboundary.symm⟩
  obtain ⟨path, hoccurs, hpath⟩ := h.exists_occurs hdeclares hunbound
  rw [Loop.mem_freeNames, Loop.free_mem_findings_iff]
  refine ⟨loop.body, by simp, path, hoccurs, hpath, fun hname => ?_⟩
  exact hapart.vars name hname (h.mem_varNames hwf hdeclares hopen)

/-! ### Names that are settled -/

section

variable {loop : Loop} {loopVars : List String}

/-- The record has each name as often as the body was found to declare it. -/
theorem Loop.count_declared_le (loop : Loop) (name : String) :
    (Capture.findings (loop.context true) loop.body).count (.declared name) ≤
      loop.capture.bodyDeclarations.count name := by
  have hcount : loop.capture.bodyDeclarations.count name = loop.findings.count (.declared name) :=
    Capture.count_collected fun finding => by cases finding <;> simp
  rw [hcount]
  exact (List.sublist_append_right _ _).count_le _

/-- No name that the blocks of a body declare twice is left as it is. -/
theorem Loop.count_le_one (hwf : loop.body.isWellFormed = true) (hapart : loop.DeclaresApart)
    {name : String} (hclear : bodyClash loop.capture loopVars name = false) :
    (letsOf loop.body.blockDeclares.flatten).count name ≤ 1 := by
  have hctx : (loop.context true).InIteration := ⟨rfl, rfl, rfl⟩
  have hfound := loop.count_declared_le name
  have hsingle : loop.capture.bodyDeclarations.count name ≤ 1 := by
    simp only [bodyClash, Bool.or_eq_false_iff, decide_eq_false_iff_not, Nat.not_lt] at hclear
    exact hclear.1.1
  have hblocks := Capture.count_blockDeclares_le hwf hapart.body hctx name
  omega

end

/-! ### Loops that are flattened -/

/-- Renaming leaves what is declared by `let` and `const`. -/
theorem Node.outline_blockDeclares_renameAll (renamings : List (String × String)) {node : Node}
    (hwf : node.isWellFormed = true) :
    (renameAll renamings node).blockDeclares.map (List.map outline) =
      node.blockDeclares.map (List.map outline) := by
  induction renamings generalizing node with
  | nil => rfl
  | cons first renamings ih =>
      obtain ⟨old, new⟩ := first
      exact (ih (Node.Stands.rename old new hwf).wellFormed).trans
        (Redeclares.rename old new hwf).outline

/-- A body that is flattened has variables in the place of its declarations. -/
theorem Node.turnsTo_flatten {body body' : Node} {clashes : String → Bool} {names names' : Registry}
    (renamings : List (String × String)) (hwf : body.isWellFormed = true)
    (hsingly : SinglyIn names body.blockDeclares)
    (hflatten : ((renameAll renamings body).flatten clashes).run names = (body', names')) :
    TurnsTo body.blockDeclares.flatten body'.blockDeclares.flatten
      ((settleNames clashes (letsOf body.blockDeclares.flatten)).run names).1 := by
  have houtline := Node.outline_blockDeclares_renameAll renamings hwf
  have hrenamed := (Node.Stands.renameAll renamings hwf).wellFormed
  have hsettles := Node.settles_changeBlocks (settles_flattenTo clashes _) hrenamed
    (Nat.le_refl _) true (hsingly.of_outline houtline)
  have hflat : ((renameAll renamings body).changeBlocks
      (flattenTo clashes (renameAll renamings body).blockDepth) true).run names =
      (body', names') := hflatten
  rw [hflat] at hsettles
  exact (hsettles.of_outline (flatten_map_outline houtline).symm).turns

/-! ### Loops whose body becomes a function -/

theorem letsOf_filter (declared : List (VarKind × String)) :
    letsOf (declared.filter (·.1.isBlockScoped)) = letsOf declared := by
  rw [letsOf, letsOf, List.filter_filter]
  simp only [Bool.and_self]

/-- The statements of a body declare by `let` and `const` what its blocks do. -/
theorem Node.letsOf_bodyStmts {body : Node} (hlexical : body.isLexicalDecl = false) :
    letsOf (stmtsDeclare body.bodyStmts).flatten = letsOf body.blockDeclares.flatten := by
  unfold Node.bodyStmts
  split
  · rw [Node.blockDeclares_block]
  · have hnone : letsOf body.declares = [] := by
      rw [← body.blockScopedNames_eq_letsOf, Node.blockScopedNames_eq_nil hlexical]
    simp only [stmtsDeclare, blockDeclaresIn, List.flatMap_cons, List.flatMap_nil, List.append_nil,
      List.flatten_cons, letsOf_append, hnone, List.nil_append]

theorem SinglyIn.bodyStmts {body : Node} {names : Registry} (h : SinglyIn names body.blockDeclares)
    (hlexical : body.isLexicalDecl = false) : SinglyIn names (stmtsDeclare body.bodyStmts) := by
  unfold Node.bodyStmts
  split
  · rwa [Node.blockDeclares_block] at h
  · have hnone : letsOf body.declares = [] := by
      rw [← body.blockScopedNames_eq_letsOf, Node.blockScopedNames_eq_nil hlexical]
    simp only [stmtsDeclare, blockDeclaresIn, List.flatMap_cons, List.flatMap_nil, List.append_nil]
    refine List.forall_mem_cons.mpr ⟨?_, h⟩
    rw [hnone]
    exact ⟨List.nodup_nil, List.nil_subset _⟩

/-- The statements of a body declare by `let` and `const` what they did, once they are hoisted. -/
theorem Node.letsOf_hoistStmts {body : Node} (hbody : body.IsStmt)
    (hlexical : body.isLexicalDecl = false) :
    letsOf (stmtsDeclare (hoistStmts body.bodyStmts)).flatten =
      letsOf body.blockDeclares.flatten := by
  rw [stmtsDeclare_hoistStmts fun stmt hmem => (Node.isStmt_bodyStmts hbody stmt hmem).2,
    ← List.filter_flatten, letsOf_filter, Node.letsOf_bodyStmts hlexical]

/-- Once a body is hoisted and flattened, all it declares are variables that its `let` and `const`
became. -/
theorem Node.stmtsDeclare_flattenStmts {body : Node} {clashes : String → Bool} {names : Registry}
    (hbody : body.IsStmt) (hlexical : body.isLexicalDecl = false)
    (hsingly : SinglyIn names body.blockDeclares) :
    let flat := (flattenStmts clashes false (hoistStmts body.bodyStmts)).run names
    let settled := (settleNames clashes (letsOf body.blockDeclares.flatten)).run names
    (stmtsDeclare flat.1).flatten = settled.1.map (VarKind.var, ·) ∧ flat.2 = settled.2 := by
  have hstmts := Node.isStmt_bodyStmts hbody
  have hhoisted := stmtsDeclare_hoistStmts fun stmt hmem => (hstmts stmt hmem).2
  have hflatten : (stmtsDeclare (hoistStmts body.bodyStmts)).flatten =
      (stmtsDeclare body.bodyStmts).flatten.filter (·.1.isBlockScoped) := by
    rw [hhoisted, List.filter_flatten]
  have hlets := Node.letsOf_hoistStmts hbody hlexical
  have hsinglyHoisted : SinglyIn names (stmtsDeclare (hoistStmts body.bodyStmts)) := by
    rw [hhoisted, SinglyIn, List.forall_mem_map]
    intro block hmem
    rw [letsOf_filter]
    exact hsingly.bodyStmts hlexical block hmem
  have hsettles := settles_flattenTo clashes _ false (hoistStmts body.bodyStmts) names
    (fun stmt hmem => ((hoistStmts_spec hstmts).1 stmt hmem).2) (Nat.lt_succ_self _) hsinglyHoisted
  have hturns := hsettles.turns
  have hnames := hsettles.names
  rw [hlets] at hturns hnames
  refine ⟨hturns.eq_map fun d hmem => ?_, hnames⟩
  rw [hflatten] at hmem
  exact (List.mem_filter.mp hmem).2

section

variable {loop : Loop} {loopVars outer : List String} {record : Capture.Record} {options : Options}
  {names names' : Registry} {extraction : Extraction}

/-- The function of a loop declares what the `let` and `const` of the body became, and nothing
else. -/
theorem Loop.ExtractsTo.declares
    (h : loop.ExtractsTo loopVars outer record options names extraction names')
    (hbody : loop.body.IsStmt) (hlexical : loop.body.isLexicalDecl = false)
    (hsingly : SinglyIn names loop.body.blockDeclares) {turned : List String} {settled : Registry}
    (hturned : (settleNames (bodyClash record loopVars)
      (letsOf loop.body.blockDeclares.flatten)).run names =
      (turned, settled))
    (hclear : ∀ name ∈ loopVars, name ∉ turned) (hgrows : turned ⊆ settled.taken) :
    (Node.block loop.span (extraction.stmts loop.labelNames options ++
        extraction.function.writeBack)).blockDeclares.flatten = turned.map (VarKind.var, ·) ∧
      ∀ param ∈ extraction.function.params, param ∉ turned := by
  obtain ⟨stmts, flattened, _, hflatten, hparams, -, -, hflat, hfunction, hprepared, hback⟩ :=
    h.stages hbody
  have hdeclared := @Node.stmtsDeclare_flattenStmts _ (bodyClash record loopVars)
      names hbody hlexical hsingly
  rw [hflatten, hturned] at hdeclared
  obtain ⟨hdeclared, hnames⟩ := hdeclared
  obtain rfl : flattened = settled := hnames
  have hzip : ∀ var ∈ loopVars.zip outer, var.1 ∉ turned :=
    fun var hmem => hclear _ (List.of_mem_zip hmem).1
  have hchosen := @stmtsDeclare_chooseParams
    (fun name => loop.head.isPlain && record.needsWriteBack name)
    (loopVars.zip outer) stmts turned flattened (fun stmt hmem => (hflat stmt hmem).2)
    hdeclared hzip
  have hcases := params_chooseParams (loopVars.zip outer) stmts flattened
    (fun name => loop.head.isPlain && record.needsWriteBack name)
  rw [hparams] at hchosen hcases
  refine ⟨?_, fun param hmem hturned => ?_⟩
  · have hstmts : extraction.stmts loop.labelNames options = redirectIn
        ⟨writeBackOf (writtenPairs _ (loopVars.zip outer) extraction.function.params), options⟩
        (.top loop.labelNames) (useAliasesIn extraction.aliases extraction.function.stmts) :=
      congrArg (fun back => redirectIn ⟨back, options⟩ _ _) hback
    rw [Node.blockDeclares_block, hstmts, hback, stmtsDeclare_append_nothing _
      (writeBackOf_declaresNothing _), stmtsDeclare_redirectIn _ fun stmt hmem =>
        (hprepared stmt hmem).2,
      stmtsDeclare_useAliasesIn _ fun stmt hmem => (hfunction stmt hmem).2, hchosen]
  · rcases hcases param hmem with hnew | ⟨hvar, -⟩
    · exact hnew (hgrows hturned)
    · obtain ⟨var, hmemVar, rfl⟩ := List.mem_map.mp hvar
      exact hzip var hmemVar hturned

end

/-! ### A loop and its variables -/

/-- The names of the variables that the declarations of a loop body became, and what they keep away
from. -/
structure Loop.KeptApart (loop : Loop) (mentioned : String → Bool) (names : Registry)
    (replacement : List Node) (outcome : Outcome) (turned : List String) : Prop where
  /-- There is one for each name that a block of the body declares by `let` or `const`. -/
  settled : List.Forall₂ (fun old new => new = old ∨ new ∉ names.taken)
    (letsOf loop.body.blockDeclares.flatten) turned
  nodup : turned.Nodup
  free : ∀ name ∈ turned, name ∉ loop.capture.freeNames
  /-- Of what the body declares by `var`, only what a catch clause hides can have such a name. -/
  vars : ∀ name ∈ turned, ∀ (path : List Node) (node : Node), node.LiesIn path loop.body →
    ¬ Crosses path →
    (VarKind.var, name) ∈ node.declares →
      ∃ clause ∈ path, clause.form = .catchClause ∧ name ∈ clause.scopeNames
  /-- They are declared in the body that stays, and the head declares others. -/
  flattened : outcome = .flattened → ∃ rebuilt : Loop, replacement = [rebuilt.toNode] ∧
    rebuilt.decl.kind = .var ∧
    TurnsTo loop.body.blockDeclares.flatten rebuilt.body.blockDeclares.flatten turned ∧
    (rebuilt.decl.names ++ turned).Nodup ∧ ∀ name ∈ rebuilt.decl.names ++ turned,
    mentioned name = false
  /-- They are all that is declared in the function, and its parameters have other names. -/
  extracted : ∀ functionName, outcome = .extracted functionName → ∃ params stmts,
    .varStmt .generated [(functionName, .functionOf params stmts loop.span)] ∈ replacement ∧
    (Node.block loop.span stmts).blockDeclares.flatten = turned.map (VarKind.var, ·) ∧
    ∀ param ∈ params, param ∉ turned

section

variable {loop : Loop} {mentioned clashes : String → Bool} {names between settled : Registry}
  {turned : List String}

/-- What is known of the names that are settled, whichever way the loop is lowered. -/
theorem Loop.settled_apart (hwf : loop.body.isWellFormed = true) (hapart : loop.DeclaresApart)
    (hknown : loop.Known names) (hgrows : names.taken ⊆ between.taken)
    (hclashes : ∀ name, clashes name = false → bodyClash loop.capture loop.decl.names name = false)
    (hsettled : (settleNames clashes (letsOf loop.body.blockDeclares.flatten)).run between =
      (turned, settled)) :
    turned.Nodup ∧ turned ⊆ settled.taken ∧
      List.Forall₂ (fun old new => new = old ∨ new ∉ names.taken)
        (letsOf loop.body.blockDeclares.flatten) turned ∧
      ∀ name ∈ turned, clashes name = false ∧ name ∈ names.taken ∨ name ∉ between.taken := by
  have hsingly := Node.singlyIn hapart.body hknown.body
  have hbetween := (hsingly.mono hgrows).known
  have hnodup := @nodup_settleNames clashes between _ hbetween
    fun name hclear => Loop.count_le_one hwf hapart (hclashes name hclear)
  have hsub := (@settleNames_known clashes between _ hbetween).1
  have hcases := @forall₂_settleNames clashes (letsOf loop.body.blockDeclares.flatten) between
  rw [hsettled] at hnodup hsub hcases
  refine ⟨hnodup, hsub, hcases.imp fun old new hcase => ?_, fun name hmem => ?_⟩
  · exact hcase.imp And.left fun hnew htaken => hnew (hgrows htaken)
  · obtain ⟨old, hold, hcase⟩ := exists_related_of_forall₂ hcases name hmem
    refine hcase.imp_left ?_
    rintro ⟨rfl, hclear⟩
    exact ⟨hclear, hsingly.known hold⟩

/-- A settled name is not free in the loop, nor does the body declare it by `var` in sight. -/
theorem Loop.notMem_freeNames_of_settled (hknown : loop.Known names)
    (hgrows : names.taken ⊆ between.taken)
    (hclashes : ∀ name, clashes name = false → bodyClash loop.capture loop.decl.names name = false)
    {name : String} (h : clashes name = false ∧ name ∈ names.taken ∨ name ∉ between.taken) :
    name ∉ loop.capture.freeNames ∧ name ∉ loop.decl.names := by
  rcases h with ⟨hclear, -⟩ | hnew
  · have hclear := hclashes name hclear
    simp only [bodyClash, Bool.or_eq_false_iff, decide_eq_false_iff_not] at hclear
    exact ⟨hclear.2, hclear.1.2⟩
  · exact ⟨fun hmem => hnew (hgrows (hknown.freeNames name hmem)),
      fun hmem => hnew (hgrows (hknown.declNames name hmem))⟩

end

/-- What a variable is called in the head is a name that is not mentioned, or a new one. -/
theorem Loop.outer_unmentioned (mentioned : String → Bool) {vars : List String} (loop : Loop)
    (names : Registry) : ∀ name ∈ ((loop.renameMentioned mentioned vars).run names).1.1,
      name ∈ vars ∧ mentioned name = false ∨ name ∉ names.taken := by
  induction vars generalizing loop names with
  | nil => exact fun name hmem => absurd hmem List.not_mem_nil
  | cons var vars ih =>
      unfold Loop.renameMentioned
      split
      · refine List.forall_mem_cons.mpr ⟨Or.inr (Registry.rename_notMem names var),
          fun name hmem => ?_⟩
        refine (ih _ _ name hmem).imp (fun h => ⟨List.mem_cons_of_mem _ h.1, h.2⟩)
          fun hnew htaken => ?_
        exact hnew ((Naming.draws_rename var).subset names htaken)
      · next hclear =>
        refine List.forall_mem_cons.mpr
          ⟨Or.inl ⟨List.mem_cons_self, by simpa using hclear⟩, fun name hmem => ?_⟩
        exact (ih loop names name hmem).imp_left fun h => ⟨List.mem_cons_of_mem _ h.1, h.2⟩

/-- The variables that a loop's declarations become are kept apart: from each other, from the free
names of the loop and from its parameters or, where the body stays in place, from all that is
mentioned around the loop. -/
theorem Loop.variables_kept_apart {stmt : Node} {loop : Loop} {mentioned : String → Bool}
    {options : Options} {names names' : Registry} {replacement : List Node} {report : Report}
    (hwf : stmt.isWellFormed = true) (hloop : Loop.ofNode? stmt = some loop)
    (hstmtApart : stmt.declaresApart = true) (hlexical : loop.body.isLexicalDecl = false)
    (hknown : stmt.Known names) (hmentioned : ∀ name, mentioned name = true → name ∈ names.taken)
    (hlower : (stmt.lowerLoop mentioned options).Gives names (replacement, report) names') :
    ∃ turned, loop.KeptApart mentioned names replacement report.outcome turned := by
  have hloopWf := Loop.wellFormed_of_ofNode? hloop hwf
  have hloopKnown := Loop.known_of_ofNode? hloop hknown
  have hapart := Loop.declaresApart_of_ofNode? hloop hstmtApart
  have htaken := hloopKnown.declNames
  rw [Node.lowerLoop, hloop] at hlower
  obtain ⟨outer, renamed, between, hrename, hcases⟩ := Loop.gives_lower hlower
  have hrenamed := Loop.Renamed.renameMentioned mentioned loop.decl.names hloopWf names
  have houter := loop.outer_renameMentioned mentioned names hapart.head htaken
  have horigins := @Loop.outer_unmentioned mentioned loop.decl.names loop names
  have hhead := @Loop.declNames_renameMentioned mentioned loop.decl.names [] loop names
      rfl hapart.head htaken
  rw [hrename] at hrenamed houter horigins hhead
  obtain ⟨houterNodup, -, houterTaken, hgrows⟩ := houter
  have hsingly := (Node.singlyIn hapart.body hloopKnown.body).mono hgrows
  have hvars : ∀ turned : List String, (∀ name ∈ turned, name ∉ loop.capture.freeNames) →
      ∀ name ∈ turned, ∀ (path : List Node) (node : Node), node.LiesIn path loop.body →
        ¬ Crosses path →
        (VarKind.var, name) ∈ node.declares →
          ∃ clause ∈ path, clause.form = .catchClause ∧ name ∈ clause.scopeNames := by
    intro turned hfree name hmem path node hlies hopen hdeclares
    by_contra hcaught
    exact hfree name hmem (Loop.mem_freeNames_of_var hloopWf.body.2 hapart hlies hopen hdeclares
      fun clause hclause hform hname => hcaught ⟨clause, hclause, hform, hname⟩)
  rcases hcases with ⟨-, hextract⟩ | ⟨-, hflatten⟩
  · obtain ⟨extraction, hextracts, rfl, rfl⟩ := Loop.extractsTo_of_gives hextract
    obtain ⟨⟨turned, settled⟩, hsettled⟩ : ∃ settled,
        (settleNames (bodyClash loop.capture loop.decl.names)
          (letsOf loop.body.blockDeclares.flatten)).run between = settled := ⟨_, rfl⟩
    obtain ⟨hnodup, hsub, hnames, horigin⟩ :=
      Loop.settled_apart hloopWf.body.2 hapart hloopKnown hgrows (fun _ hclear => hclear) hsettled
    have haway := fun name hmem => Loop.notMem_freeNames_of_settled hloopKnown hgrows
      (fun _ hclear => hclear) (horigin name hmem)
    rw [← hrenamed.body] at hsettled hsingly
    obtain ⟨hdeclared, hparams⟩ := hextracts.declares hrenamed.wellFormed.body
      (hrenamed.body ▸ hlexical) hsingly hsettled
      (fun name hvar hmem => (haway name hmem).2 hvar) hsub
    refine ⟨turned, hnames, hnodup, fun name hmem => (haway name hmem).1,
      hvars turned fun name hmem => (haway name hmem).1, fun e => (by cases e),
      fun functionName e => ?_⟩
    cases e
    refine ⟨_, _, ?_, hrenamed.span ▸ hdeclared, hparams⟩
    rw [extraction.replacement_eq, ← hrenamed.span]
    exact List.mem_append_right _ List.mem_cons_self
  · obtain ⟨body, hbody, rfl, rfl⟩ := Loop.run_flattened hflatten
    obtain ⟨⟨turned, settled⟩, hsettled⟩ : ∃ settled,
        (settleNames (fun name => bodyClash loop.capture loop.decl.names name || mentioned name)
          (letsOf loop.body.blockDeclares.flatten)).run between = settled := ⟨_, rfl⟩
    have hclashes : ∀ name,
        (bodyClash loop.capture loop.decl.names name || mentioned name) = false →
          bodyClash loop.capture loop.decl.names name = false :=
      fun name hclear => (Bool.or_eq_false_iff.mp hclear).1
    obtain ⟨hnodup, hsub, hnames, horigin⟩ :=
      Loop.settled_apart hloopWf.body.2 hapart hloopKnown hgrows hclashes hsettled
    have haway := fun name hmem => Loop.notMem_freeNames_of_settled hloopKnown hgrows hclashes
      (horigin name hmem)
    rw [hrenamed.body] at hbody
    have hturns := Node.turnsTo_flatten _ hloopWf.body.2 hsingly hbody
    rw [hsettled] at hturns
    have hdeclared : renamed.decl.names = outer := hhead
    have hunmentioned : ∀ name, name ∉ names.taken → mentioned name = false := fun name hnew =>
      Bool.eq_false_iff.mpr fun hmention => hnew (hmentioned name hmention)
    refine ⟨turned, hnames, hnodup, fun name hmem => (haway name hmem).1,
      hvars turned fun name hmem => (haway name hmem).1, fun _ => ⟨_, rfl, rfl, hturns, ?_, ?_⟩,
      fun functionName e => (by cases e)⟩
    · show (renamed.decl.names ++ turned).Nodup
      rw [hdeclared]
      refine List.nodup_append'.mpr ⟨houterNodup, hnodup, fun name hvar hmem => ?_⟩
      rcases horigins name hvar with ⟨hold, -⟩ | hnew
      · exact (haway name hmem).2 hold
      · rcases horigin name hmem with ⟨-, htaken⟩ | hfresh
        · exact hnew htaken
        · exact hfresh (houterTaken hvar)
    · show ∀ name ∈ renamed.decl.names ++ turned, mentioned name = false
      rw [hdeclared]
      refine List.forall_mem_append.mpr ⟨fun name hvar => ?_, fun name hmem => ?_⟩
      · exact (horigins name hvar).elim And.right (hunmentioned name)
      · rcases horigin name hmem with ⟨hclear, -⟩ | hfresh
        · exact (Bool.or_eq_false_iff.mp hclear).2
        · exact hunmentioned name fun htaken => hfresh (hgrows htaken)

/-! ### A loop with a catch clause -/

/-- The statement `let name = value;`. -/
def letStmt (name : String) (value : Node) : Node :=
  .varDecl (.lexical false) false .generated
    [.declarator false .generated (.binding name false .generated .absent) value]

/-- The loop `for (let x of xs) { try { use; } catch (y) { var y = x; } stmts }`. -/
def catchingLoop (stmts : List Node) : Loop where
  labels := []
  span := .generated
  decl := ⟨.lexical false, false, .generated,
    [.declarator false .generated (.binding "x" false .generated .absent) .absent]⟩
  head := .values false (.use "xs" .generated)
  body := .block .generated (.mk .tryStmt .generated
    [.block .generated [.exprStmt (.use "use" .generated)],
      .mk .catchClause .generated [.binding "y" false .generated .absent,
        .block .generated [.varStmt .generated [("y", .use "x" .generated)]]],
      .absent] :: stmts)

/-- The statements `let w = x; { let y = kept; } while (w) { let y = w; }`. -/
def crowdedStmts (kept : Node) : List Node :=
  [letStmt "w" (.use "x" .generated), .block .generated [letStmt "y" kept],
    .mk .whileStmt .generated [.use "w" .generated,
      .block .generated [letStmt "y" (.use "w" .generated)]]]

/-- The names of these loops. -/
def catchingNames : Registry := ⟨["x", "xs", "y", "w", "use"], []⟩

/-- What is mentioned around these loops. -/
def aroundCatching (name : String) : Bool := decide (name = "x" ∨ name = "w")

/-- An arrow function that returns the loop variable. -/
def keepingArrow : Node := .mk (.arrow false false)
    .generated [.list [], .use "x" .generated, .absent]

/-- The loop is flattened if no closure keeps a variable, and its body becomes a function otherwise.
Either way the two `y` are told apart. -/
theorem catchingLoop_kept_apart :
    letsOf (catchingLoop (crowdedStmts keepingArrow)).body.blockDeclares.flatten = ["w", "y", "y"] ∧
      (∃ replacement capture names' turned,
        ((catchingLoop (crowdedStmts (.use "x" .generated))).toNode.lowerLoop
          aroundCatching {}).Gives
            catchingNames (replacement, ⟨.generated, .flattened, capture⟩) names' ∧
          (catchingLoop (crowdedStmts (.use "x" .generated))).KeptApart aroundCatching catchingNames
            replacement .flattened turned) ∧
      ∃ replacement capture names' turned,
        ((catchingLoop (crowdedStmts keepingArrow)).toNode.lowerLoop aroundCatching {}).Gives
            catchingNames (replacement, ⟨.generated, .extracted "loop", capture⟩) names' ∧
          (catchingLoop (crowdedStmts keepingArrow)).KeptApart aroundCatching catchingNames
            replacement (.extracted "loop") turned := by
  have hmentioned : ∀ name, aroundCatching name = true → name ∈ catchingNames.taken := by
    intro name h
    rcases of_decide_eq_true h with rfl | rfl
    · decide
    · decide
  refine ⟨by decide +kernel, ?_, ?_⟩
  · obtain ⟨replacement, capture, names', hlower⟩ : ∃ replacement capture names',
        ((catchingLoop (crowdedStmts (.use "x" .generated))).toNode.lowerLoop
          aroundCatching {}).Gives catchingNames (replacement, ⟨.generated, .flattened, capture⟩)
            names' := ⟨_, _, _, rfl⟩
    obtain ⟨turned, h⟩ := Loop.variables_kept_apart (by decide +kernel) (Loop.ofNode?_toNode _ rfl)
      (by decide +kernel) rfl (by unfold Node.Known; decide +kernel) hmentioned hlower
    exact ⟨replacement, capture, names', turned, hlower, h⟩
  · obtain ⟨replacement, capture, names', hlower⟩ : ∃ replacement capture names',
        ((catchingLoop (crowdedStmts keepingArrow)).toNode.lowerLoop aroundCatching {}).Gives
          catchingNames (replacement, ⟨.generated, .extracted "loop", capture⟩) names' :=
            ⟨_, _, _, rfl⟩
    obtain ⟨turned, h⟩ := Loop.variables_kept_apart (by decide +kernel) (Loop.ofNode?_toNode _ rfl)
      (by decide +kernel) rfl (by unfold Node.Known; decide +kernel) hmentioned hlower
    exact ⟨replacement, capture, names', turned, hlower, h⟩

/-- A catch clause of the body hides the `var` of a name from the analysis.  If another block
declares the name, its variable has the same name. -/
theorem catchingLoop_merges : ∃ rebuilt report names',
    (catchingLoop [.block .generated [letStmt "y" (.use "x" .generated)]]).toNode.isWellFormed =
        true ∧
      (catchingLoop [.block .generated [letStmt "y" (.use "x" .generated)]]).toNode.declaresApart =
        true ∧
      ((catchingLoop [.block .generated [letStmt "y" (.use "x" .generated)]]).toNode.lowerLoop
          (fun _ => false) {}).Gives catchingNames ([Loop.toNode rebuilt], report) names' ∧
      (catchingLoop [.block .generated
        [letStmt "y" (.use "x" .generated)]]).body.blockDeclares.flatten =
        [(.var, "y"), (.lexical false, "y")] ∧
      rebuilt.body.blockDeclares.flatten = [(.var, "y"), (.var, "y")] := by
  refine ⟨_, _, _, by decide +kernel, by decide +kernel, rfl, by decide +kernel, by decide +kernel⟩

end LoopLowering
