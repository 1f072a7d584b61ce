/-
Where a write-back can lie.

When the body of a loop becomes a function, the assignment `counter = parameter` is put in the place
of each `continue`, under whatever scopes there are around it.  `Node.LiesUnder` says under which
scopes of the language a statement lies in a tree.  In a tree whose jumps were redirected, these are
among the names that `Node.around` collects of the tree as it was.

All that is said of a write-back is said of every statement that looks like it.  So there must be
none but those that were put there: `Node.hasNoCopy` says that a tree has none, and it is kept by
renaming and by naming `this` and `arguments`, unless the parameter is named without the counter.
-/
import LoopLowering.Proofs.Around
import LoopLowering.Proofs.Enclosing

namespace LoopLowering

/-! ### Scopes around a statement -/

/-- A node lies in a tree under these scopes, innermost first. -/
inductive Node.LiesUnder (inner : Node) : List (List String) → Node → Prop
  | here : LiesUnder inner [] inner
  | inside {node part : Node} {names : List String} {scopes : List (List String)}
      (hpart : (part, names) ∈ node.partScopes) (h : LiesUnder inner scopes part) :
      LiesUnder inner (scopes ++ [names]) node

theorem Node.LiesUnder.within {inner node : Node} {scopes : List (List String)}
    (h : inner.LiesUnder scopes node) : inner.Within node := by
  induction h with
  | here => exact .self
  | @inside node part names scopes hpart h ih =>
      obtain ⟨form, span, parts⟩ := node
      have hmem : part ∈ parts := Node.mem_parts_of_mem_partScopes hpart
      exact .part hmem ih

theorem Node.liesUnder_iff {inner node : Node} {scopes : List (List String)} :
    inner.LiesUnder scopes node ↔ (node = inner ∧ scopes = []) ∨
      ∃ part names rest, (part, names) ∈ node.partScopes ∧ inner.LiesUnder rest part ∧
        scopes = rest ++ [names] := by
  constructor
  · intro h
    cases h with
    | here => exact Or.inl ⟨rfl, rfl⟩
    | inside hpart h => exact Or.inr ⟨_, _, _, hpart, h, rfl⟩
  · rintro (⟨rfl, rfl⟩ | ⟨part, names, rest, hpart, h, rfl⟩)
    · exact .here
    · exact .inside hpart h

/-! ### What the language binds, and what is collected -/

theorem Node.lexicalNames_subset_declared (node : Node) :
    node.lexicalNames ⊆ node.declared true := by
  unfold Node.lexicalNames
  split
  · exact List.Subset.refl _
  · simp [Node.declared, Node.names, Form.names]
  · simp [Node.declared, Node.names, Form.names]
  · exact List.nil_subset _

theorem Node.usingNames_subset_declared (node : Node) : node.usingNames ⊆ node.declared true := by
  unfold Node.usingNames
  split
  · exact List.Subset.refl _
  · exact List.nil_subset _

theorem blockNames_subset_declared (stmts : List Node) :
    blockNames stmts ⊆ stmts.flatMap (Node.declared true) := by
  intro name hname
  rcases List.mem_append.mp hname with hname | hname
  · obtain ⟨stmt, hmem, hname⟩ := List.mem_flatMap.mp hname
    exact List.mem_flatMap.mpr ⟨stmt, hmem, stmt.lexicalNames_subset_declared hname⟩
  · obtain ⟨stmt, hmem, hname⟩ := List.mem_flatMap.mp hname
    exact List.mem_flatMap.mpr ⟨stmt, hmem, stmt.usingNames_subset_declared hname⟩

theorem Node.caseNames_subset_declared (node : Node) : node.caseNames ⊆ node.declared true := by
  unfold Node.caseNames
  split
  · next stmts =>
    simp only [Node.declared, declaredIn, declaredIn_eq_flatMap stmts, List.append_nil]
    exact List.Subset.trans (blockNames_subset_declared stmts) (List.subset_append_right _ _)
  · exact List.nil_subset _

theorem Node.headNames_subset_declared (form : Form) (span : Span) (parts : List Node) :
    (Node.mk form span parts).headNames ⊆ parts.flatMap (Node.declared true) := by
  have hhead : ∀ (head : Node) (rest : List Node),
      head.blockScopedNames ⊆ (head :: rest).flatMap (Node.declared true) :=
        fun head rest name hname =>
    List.mem_flatMap.mpr ⟨head, List.mem_cons_self,
      head.lexicalNames_subset_declared (head.blockScopedNames_subset_lexicalNames hname)⟩
  unfold Node.headNames
  split
  · next heq =>
    cases heq
    exact hhead _ _
  · next heq =>
    cases heq
    exact hhead _ _
  · next heq =>
    cases heq
    exact hhead _ _
  · exact List.nil_subset _

/-- What a loop binds by its head. -/
theorem Node.loopNames_subset_bound (node : Node) : node.loopNames ⊆ node.bound true := by
  obtain ⟨form, span, parts⟩ := node
  cases hloop : form.isLoop with
  | true =>
      have hbound : (Node.mk form span parts).bound true = parts.flatMap (Node.declared true) := by
        cases form with
        | forStmt | forInStmt | forOfStmt | whileStmt | doWhileStmt => rfl
        | _ => cases hloop
      rw [hbound]
      refine List.append_subset.mpr ⟨Node.headNames_subset_declared form span parts, ?_⟩
      rw [if_pos (show (Node.mk form span parts).form.isLoop = true from hloop)]
      intro name hname
      obtain ⟨part, hmem, hname⟩ := List.mem_flatMap.mp hname
      exact List.mem_flatMap.mpr ⟨part, hmem, part.usingNames_subset_declared hname⟩
  | false =>
      have hnone : (Node.mk form span parts).loopNames = [] := by
        rw [Node.loopNames, if_neg (by simpa [Node.form] using hloop)]
        cases form with
        | forStmt | forInStmt | forOfStmt => cases hloop
        | _ => rfl
      rw [hnone]
      exact List.nil_subset _

/-- Whatever a node binds for a part that holds statements is collected. -/
theorem Node.mem_bound_of_mem_partScopes {form : Form} {span : Span}
    {parts : List Node} {part : Node} {names : List String} {name : String}
    (hwf : (Node.mk form span parts).isWellFormed = true)
    (hclosure : form.isClosure = false) (hmember : form.category ≠ .member)
    (hslots : form ≠ .list → form.shape.slots.all Slot.isQuiet = false)
    (hpart : (part, names) ∈ (Node.mk form span parts).partScopes) (hname : name ∈ names) :
    name ∈ (Node.mk form span parts).bound true := by
  have hshared : ∀ {nodes : List Node} {shared : List String},
      (part, names) ∈ nodes.map (·, shared) → name ∈ shared := by
    intro nodes shared hpart
    obtain ⟨other, -, heq⟩ := List.mem_map.mp hpart
    cases heq
    exact hname
  unfold Node.partScopes at hpart
  split at hpart
  case h_1 heq =>
    cases heq
    exact blockNames_subset_declared _ (hshared hpart)
  case h_2 value cases heq =>
    cases heq
    have hfill := (Node.isWellFormed_mk.mp hwf).1.resolve_left (by simp)
    simp only [Form.shape, Shape.admits, fillSlots, Slot.admits, Node.isListOf, Bool.and_eq_true,
      beq_iff_eq] at hfill
    obtain ⟨caseForm, caseSpan, items⟩ := cases
    obtain rfl : caseForm = .list := hfill.2.1.1
    rcases List.mem_cons.mp hpart with heq | hpart
    · cases heq
      cases hname
    · cases List.mem_singleton.mp hpart
      obtain ⟨item, hmem, hname⟩ := List.mem_flatMap.mp hname
      refine List.mem_flatMap.mpr ⟨_, List.mem_cons_of_mem _ List.mem_cons_self, ?_⟩
      rw [Node.declared, declaredIn_eq_flatMap]
      exact List.mem_flatMap.mpr ⟨item, hmem, item.caseNames_subset_declared hname⟩
  case h_3 heq =>
    cases heq
    exact hshared hpart
  case h_4 heq =>
    cases heq
    cases hslots (by simp)
  case h_10 heq =>
    cases heq
    cases hmember rfl
  case h_11 heq =>
    cases heq
    cases hslots (by simp)
  case h_12 heq =>
    cases heq
    cases hslots (by simp)
  case h_13 => exact Node.loopNames_subset_bound _ (hshared hpart)
  all_goals
    next heq =>
    cases heq
    cases hclosure

/-- A node around statements has room for them. -/
theorem Node.slots_not_quiet {form : Form} {span : Span} {parts : List Node} {part : Node}
    (hwf : (Node.mk form span parts).isWellFormed = true) (hmem : part ∈ parts)
    (hpart : part.isQuiet = false) (hform : form ≠ .list) :
    form.shape.slots.all Slot.isQuiet = false := by
  by_contra hquiet
  obtain ⟨slot, hslot, hadmits⟩ :=
    Shape.exists_slot ((Node.isWellFormed_mk.mp hwf).1.resolve_left hform) hmem
  have hkind := List.all_eq_true.mp (by simpa using hquiet) slot hslot
  rw [Slot.isQuiet, Bool.and_eq_true, Bool.not_eq_true'] at hkind
  have hpartQuiet : part.isQuiet = true :=
    Slot.allAre_of_admits rfl hkind.1 (by simpa using hkind.2) hadmits
  rw [hpart] at hpartQuiet
  cases hpartQuiet

/-! ### Write-backs and redirected jumps -/

/-- The statement `target = source;`, as it is written back. -/
def copyStmt (target source : String) : Node :=
  .exprStmt (.assignTo target (.use source .generated) .generated)

theorem writeBackOf_eq_map (pairs : List (String × String)) :
    writeBackOf pairs = pairs.map fun pair => copyStmt pair.1 pair.2 := rfl

/-- The role and the name of an identifier. -/
def Node.ident? : Node → Option (Role × String)
  | .mk (.ident role name _) _ _ => some (role, name)
  | _ => none

/-- Whether a node assigns the one variable to the other. -/
def Node.isCopy (target source : String) : Node → Bool
  | .mk (.assign _) _ [left, right] =>
    left.ident? == some (.bind, target) && right.ident? == some (.use, source)
  | _ => false

/-- Whether the one variable is assigned to the other nowhere in a tree. -/
def Node.hasNoCopy (target source : String) (node : Node) : Bool :=
  node.everywhere fun inner => !inner.isCopy target source

section

variable {target source : String}

theorem Node.not_within_of_hasNoCopy {node : Node} (h : node.hasNoCopy target source = true) :
    ¬ (copyStmt target source).Within node := by
  intro hwithin
  have hcopy := hwithin.everywhere h
  simp [copyStmt, Node.exprStmt, Node.assignTo, Node.everywhere, everywhereIn, Node.isCopy,
    Node.ident?] at hcopy

theorem Node.hasNoCopy_part {form : Form} {span : Span} {parts : List Node} {part : Node}
    (h : (Node.mk form span parts).hasNoCopy target source = true) (hmem : part ∈ parts) :
    part.hasNoCopy target source = true :=
  (Node.everywhere_mk.mp h).2 part hmem

theorem Completion.copy_within_toReturn {completion : Completion} {options : Options} {span : Span}
    (h : (copyStmt target source).Within (completion.toReturn options span)) :
    ∃ value, completion = .result (some value) ∧ (copyStmt target source).Within value := by
  cases completion with
  | normal =>
      simp [Completion.toReturn, Node.returnStmt, Node.absent, Node.within_mk, copyStmt,
        Node.exprStmt] at h
  | leave =>
      simp [Completion.toReturn, Node.returnStmt, Node.stringLit, Node.within_mk, copyStmt,
        Node.exprStmt] at h
  | result value? =>
      cases value? with
      | none =>
          simp [Completion.toReturn, Node.returnStmt, Node.objectOf, Node.keyValue, Node.undefined,
            Node.within_mk, copyStmt, Node.exprStmt] at h
      | some value =>
          refine ⟨value, rfl, ?_⟩
          simpa [Completion.toReturn, Node.returnStmt, Node.objectOf, Node.keyValue, Node.within_mk,
            copyStmt, Node.exprStmt] using h

/-- A copy in a redirected tree was put there for a `continue`. -/
theorem Node.goesOn_of_copy_within {redirection : Redirection} {ctx : JumpContext} {node : Node}
    (hwf : node.isWellFormed = true) (hnone : node.hasNoCopy target source = true)
    (hwithin : (copyStmt target source).Within (node.redirect redirection ctx)) :
    node.goesOn ctx = true := by
  induction node using Node.inductionOn generalizing ctx with
  | step form span parts ih =>
      unfold Node.redirect at hwithin
      split at hwithin
      · exact absurd hwithin (Node.not_within_of_hasNoCopy hnone)
      · next hclosure =>
        split at hwithin
        · split at hwithin
          · obtain ⟨value, heq, -⟩ := Completion.copy_within_toReturn hwithin
            cases heq
          · exact absurd hwithin (Node.not_within_of_hasNoCopy hnone)
        · split at hwithin
          · next hloop =>
            simp [Node.goesOn, Node.jumps, Form.isClosure, hloop, JumpTarget.jump?, Jump.isNext]
          · exact absurd hwithin (Node.not_within_of_hasNoCopy hnone)
        · obtain ⟨value, heq, hvalue⟩ := Completion.copy_within_toReturn hwithin
          have hmem : value ∈ parts := List.mem_of_find?_eq_some (Completion.result.inj heq)
          exact absurd hvalue (Node.not_within_of_hasNoCopy (Node.hasNoCopy_part hnone hmem))
        · next hbreak hcontinue hreturn =>
          have hopen : form.isClosure = false := by simpa using hclosure
          have hjump : form.isJump = false := by
            cases form with
            | breakStmt => exact absurd rfl (hbreak _)
            | continueStmt => exact absurd rfl (hcontinue _)
            | returnStmt => exact absurd rfl hreturn
            | _ => rfl
          rw [redirectIn_eq_map] at hwithin
          rcases Node.within_mk.mp hwithin with heq | ⟨other, hother, hwithin⟩
          · -- The statement of an expression has no jump in it.
            obtain rfl : form = .exprStmt := (congrArg Node.form heq).symm
            have hsame := Node.redirect_of_isQuiet_slots redirection ctx ⟨by simp, rfl⟩ rfl hwf
            rw [Node.redirect_mk redirection ctx rfl rfl] at hsame
            rw [hsame] at heq
            exact absurd (heq ▸ .self) (Node.not_within_of_hasNoCopy hnone)
          · obtain ⟨part, hmem, rfl⟩ := List.mem_map.mp hother
            rw [Node.goesOn_mk hopen hjump, List.any_eq_true]
            exact ⟨part, hmem, ih part hmem (Node.isWellFormed_part hwf hmem)
              (Node.hasNoCopy_part hnone hmem) hwithin⟩

/-- Only a `continue` of the loop itself is a jump that goes on. -/
theorem Node.goesOn_of_isJump {form : Form} {span : Span} {parts : List Node} {ctx : JumpContext}
    (hjump : form.isJump = true) (h : (Node.mk form span parts).goesOn ctx = true) :
    ∃ label, form = .continueStmt label ∧ ctx.continueTarget label = .loop := by
  cases form with
  | continueStmt label =>
      refine ⟨label, rfl, ?_⟩
      cases htarget : ctx.continueTarget label with
      | loop => rfl
      | inner => simp [Node.goesOn, Node.jumps, Form.isClosure, htarget, JumpTarget.jump?] at h
      | outer => simp [Node.goesOn, Node.jumps, Form.isClosure, htarget,
          JumpTarget.jump?, Jump.isNext] at h
  | breakStmt label =>
      cases htarget : ctx.breakTarget label <;>
        simp [Node.goesOn, Node.jumps, Form.isClosure, htarget, JumpTarget.jump?, Jump.isNext] at h
  | returnStmt => simp [Node.goesOn, Node.jumps, Form.isClosure, Jump.isNext] at h
  | _ => cases hjump

/-- Redirecting jumps leaves the declarations alone. -/
theorem Node.declared_redirect (redirection : Redirection) (ctx : JumpContext) {node : Node}
    (hwf : node.isWellFormed = true) :
    (node.redirect redirection ctx).declared true = node.declared true := by
  induction node using Node.inductionOn generalizing ctx with
  | step form span parts ih =>
      have hin : ∀ ctx, declaredIn (parts.map (Node.redirect redirection ctx)) =
          declaredIn parts := by
        intro ctx
        rw [declaredIn_eq_flatMap, declaredIn_eq_flatMap, List.flatMap_map]
        exact List.flatMap_congr fun part hmem => ih part hmem ctx (Node.isWellFormed_part hwf hmem)
      cases form with
      | varDecl | usingDecl | classDecl | functionDecl =>
          rw [Node.redirect_of_isQuiet_slots redirection ctx ⟨by simp, rfl⟩ rfl hwf]
      | list | switchCase | caseBody =>
          rw [Node.redirect_mk redirection ctx rfl rfl]
          exact hin _
      | breakStmt label =>
          change (if _ then _ else _ : Node).declared true = _
          split
          · rfl
          · rfl
      | continueStmt label =>
          change (if _ then redirection.continueStmt span else _ : Node).declared true = _
          unfold Redirection.continueStmt
          split
          · split <;> rfl
          · rfl
      | _ => rfl

theorem Node.bound_redirect (redirection : Redirection) (ctx : JumpContext)
    {form : Form} {span : Span} {parts : List Node}
    (hwf : (Node.mk form span parts).isWellFormed = true) :
    (Node.mk form span (parts.map (Node.redirect redirection ctx))).bound true =
      (Node.mk form span parts).bound true := by
  have hsame : (parts.map (Node.redirect redirection ctx)).flatMap (Node.declared true) =
      parts.flatMap (Node.declared true) := by
    rw [List.flatMap_map]
    exact List.flatMap_congr fun part hmem =>
      Node.declared_redirect redirection ctx (Node.isWellFormed_part hwf hmem)
  cases form with
  | block | switchStmt | forStmt | forInStmt | forOfStmt | whileStmt | doWhileStmt => exact hsame
  | catchClause =>
      obtain ⟨param, body, rfl⟩ := List.length_eq_two.mp (Node.length_parts hwf (by simp) rfl)
      have hfill := (Node.isWellFormed_mk.mp hwf).1.resolve_left (by simp)
      simp only [Form.shape, Shape.admits, fillSlots, Bool.and_eq_true] at hfill
      have hparam := Node.redirect_of_admits redirection ctx rfl hfill.1
        (Node.isWellFormed_part hwf List.mem_cons_self)
      rw [List.map_cons, hparam]
      rfl
  | _ => rfl

theorem Completion.varNames_toReturn (completion : Completion) (options : Options) (span : Span) :
    ∀ name ∈ (completion.toReturn options span).varNames,
      ∃ value, completion = .result (some value) ∧ name ∈ value.varNames := by
  intro name hname
  cases completion with
  | normal | leave => cases hname
  | result value? =>
      cases value? with
      | none => cases hname
      | some value =>
          refine ⟨value, rfl, ?_⟩
          simpa [Completion.toReturn, Node.returnStmt, Node.objectOf, Node.keyValue, Node.varNames,
            varNamesOf, Form.isClosure] using hname

theorem Redirection.varNames_continueStmt (pairs : List (String × String)) (options : Options)
    (span : Span) : (Redirection.continueStmt ⟨writeBackOf pairs, options⟩ span).varNames = [] := by
  unfold Redirection.continueStmt
  split
  · rfl
  · simp only [Node.varNames, Form.isClosure, Bool.false_eq_true, if_false, varNamesOf_eq_flatMap,
      List.flatMap_append, List.append_eq_nil_iff, List.flatMap_eq_nil_iff]
    refine ⟨?_, fun stmt hmem => ?_⟩
    · rw [writeBackOf_eq_map, List.forall_mem_map]
      exact fun pair _ => rfl
    · rw [List.mem_singleton.mp hmem]
      rfl

/-- Redirecting jumps declares no variable. -/
theorem Node.varNames_redirect (pairs : List (String × String)) (options : Options)
    (ctx : JumpContext) {node : Node} (hwf : node.isWellFormed = true) :
    (node.redirect ⟨writeBackOf pairs, options⟩ ctx).varNames ⊆ node.varNames := by
  induction node using Node.inductionOn generalizing ctx with
  | step form span parts ih =>
      have hparts : ∀ name part, part ∈ parts → name ∈ part.varNames → form.isClosure = false →
          (∀ declare, form ≠ .varDecl .var declare) →
          name ∈ (Node.mk form span parts).varNames := by
        intro name part hmem hname hclosure hvar
        unfold Node.varNames
        rw [if_neg (by simp [hclosure])]
        split
        · exact absurd rfl (hvar _)
        · rw [varNamesOf_eq_flatMap]
          exact List.mem_flatMap.mpr ⟨part, hmem, hname⟩
      intro name hname
      by_cases hvar : ∃ declare, form = .varDecl .var declare
      · obtain ⟨declare, rfl⟩ := hvar
        rwa [Node.redirect_of_isQuiet_slots _ ctx ⟨by simp, rfl⟩ rfl hwf] at hname
      · rw [not_exists] at hvar
        unfold Node.redirect at hname
        split at hname
        · exact hname
        · next hclosure =>
          have hopen : form.isClosure = false := by simpa using hclosure
          split at hname
          · split at hname
            · obtain ⟨value, heq, -⟩ := Completion.varNames_toReturn _ _ _ name hname
              cases heq
            · exact hname
          · split at hname
            · rw [Redirection.varNames_continueStmt] at hname
              cases hname
            · exact hname
          · obtain ⟨value, heq, hvalue⟩ := Completion.varNames_toReturn _ _ _ name hname
            have hmem : value ∈ parts := List.mem_of_find?_eq_some (Completion.result.inj heq)
            exact hparts name value hmem hvalue hopen hvar
          · unfold Node.varNames at hname
            rw [if_neg hclosure] at hname
            split at hname
            · exact absurd rfl (hvar _)
            · rw [varNamesOf_eq_flatMap, redirectIn_eq_map, List.flatMap_map] at hname
              obtain ⟨part, hmem, hname⟩ := List.mem_flatMap.mp hname
              exact hparts name part hmem (ih part hmem _ (Node.isWellFormed_part hwf hmem) hname)
                hopen hvar

/-- A write-back binds nothing. -/
theorem Node.scopes_of_lies_copyStmt {left right : String} {scopes : List (List String)}
    (h : (copyStmt target source).LiesUnder scopes (copyStmt left right)) :
    ∀ scope ∈ scopes, scope = [] := by
  rcases Node.liesUnder_iff.mp h with ⟨-, rfl⟩ | ⟨part, names, rest, hpart, hrest, -⟩
  · exact fun scope hmem => absurd hmem List.not_mem_nil
  · obtain rfl : part = .assignTo left (.use right .generated) .generated := by
      simpa [copyStmt, Node.exprStmt, Node.parts] using Node.mem_parts_of_mem_partScopes hpart
    have hwithin := hrest.within
    simp [Node.assignTo, Node.within_mk, copyStmt, Node.exprStmt, Node.absent] at hwithin

/-- Neither does what takes the place of a `continue`. -/
theorem Node.scopes_of_lies_continueStmt {pairs : List (String × String)}
    {options : Options} {span : Span} {scopes : List (List String)}
    (h : (copyStmt target source).LiesUnder scopes
      (Redirection.continueStmt ⟨writeBackOf pairs, options⟩ span)) :
    ∀ scope ∈ scopes, scope = [] := by
  have hreturn : ∀ {rest}, ¬ (copyStmt target source).LiesUnder rest
      (Completion.normal.toReturn options span) := fun h => by
    obtain ⟨value, heq, -⟩ := Completion.copy_within_toReturn h.within
    cases heq
  unfold Redirection.continueStmt at h
  split at h
  · exact absurd h hreturn
  · rcases Node.liesUnder_iff.mp h with ⟨heq, -⟩ | ⟨part, names, rest, hpart, hrest, rfl⟩
    · cases heq
    · obtain ⟨stmt, hmem, heq⟩ := List.mem_map.mp hpart
      cases heq
      have hnames : blockNames (writeBackOf pairs ++ [Completion.normal.toReturn options span]) =
          [] := by
        refine List.subset_nil.mp (List.Subset.trans (blockNames_subset_declared _) ?_)
        refine List.subset_nil.mpr (List.flatMap_eq_nil_iff.mpr fun stmt hmem => ?_)
        rcases List.mem_append.mp hmem with hmem | hmem
        · obtain ⟨pair, -, rfl⟩ := List.mem_map.mp hmem
          rfl
        · rw [List.mem_singleton.mp hmem]
          rfl
      rw [hnames]
      rcases List.mem_append.mp hmem with hmem | hmem
      · rw [writeBackOf_eq_map] at hmem
        obtain ⟨pair, -, rfl⟩ := List.mem_map.mp hmem
        simpa [or_imp, forall_and] using Node.scopes_of_lies_copyStmt hrest
      · exact absurd (List.mem_singleton.mp hmem ▸ hrest) hreturn

theorem isPlainStmt_copyStmt : (copyStmt target source).IsPlainStmt :=
  ⟨Node.isStmt_exprStmt (Node.isExpr_assignTo (Node.isExpr_use _) _), fun gauge =>
    by simp [copyStmt]⟩

/-- Where a tree binds a name around no `continue` of the loop, no scope around a write-back in the
redirected tree binds it. -/
theorem Node.clear_of_lies_redirect {pairs : List (String × String)} {options : Options}
    {ctx : JumpContext} {node : Node} {scopes : List (List String)} {name : String}
    (hwf : node.isWellFormed = true) (hkind : node.allAre (·.isFreestanding) = true)
    (hnone : node.hasNoCopy target source = true) (hclear : name ∉ node.around true ctx)
    (h : (copyStmt target source).LiesUnder scopes
      (node.redirect ⟨writeBackOf pairs, options⟩ ctx)) :
    ∀ scope ∈ scopes, name ∉ scope := by
  have hback : ∀ stmt ∈ (⟨writeBackOf pairs, options⟩ : Redirection).writeBack,
      stmt.IsPlainStmt := by
    rw [writeBackOf_eq_map, List.forall_mem_map]
    exact fun pair _ => isPlainStmt_copyStmt
  induction node using Node.inductionOn generalizing ctx scopes with
  | step form span parts ih =>
      have hgoes := Node.goesOn_of_copy_within hwf hnone h.within
      have hclosure : form.isClosure = false := by
        by_contra hclosure
        rw [Node.goesOn_of_isClosure (by simpa using hclosure)] at hgoes
        cases hgoes
      cases hjump : form.isJump with
      | true =>
          obtain ⟨label, rfl, htarget⟩ := Node.goesOn_of_isJump hjump hgoes
          unfold Node.redirect at h
          rw [if_neg (by simp [Form.isClosure])] at h
          simp only [if_pos htarget] at h
          intro scope hmem
          rw [Node.scopes_of_lies_continueStmt h scope hmem]
          exact List.not_mem_nil
      | false =>
          have hresult := (Node.Stands.redirect hback ctx hwf).wellFormed
          rw [Node.redirect_mk _ ctx hclosure hjump] at h hresult
          rcases Node.liesUnder_iff.mp h with ⟨-, rfl⟩ | ⟨other, names, rest, hpart, hrest, rfl⟩
          · exact fun scope hmem => absurd hmem List.not_mem_nil
          · obtain ⟨part, hmem, rfl⟩ := List.mem_map.mp (Node.mem_parts_of_mem_partScopes hpart)
            have hpartGoes := Node.goesOn_of_copy_within (Node.isWellFormed_part hwf hmem)
              (Node.hasNoCopy_part hnone hmem) hrest.within
            have hany : parts.any (Node.goesOn (ctx.enter form)) = true :=
              List.any_eq_true.mpr ⟨part, hmem, hpartGoes⟩
            have hnotQuiet : part.isQuiet = false := by
              by_contra hquiet
              rw [Node.goesOn_of_isQuiet (Node.isWellFormed_part hwf hmem)
                (by simpa using hquiet)] at hpartGoes
              cases hpartGoes
            have hboundary : form.boundary ≠ .function := fun e => by
              have hblock := Form.boundary_bne_block form
              rw [hclosure, e] at hblock
              cases hblock
            refine List.forall_mem_append.mpr ⟨?_, List.forall_mem_singleton.mpr fun hname => ?_⟩
            · refine ih part hmem (Node.isWellFormed_part hwf hmem)
                (Node.allAre_part rfl rfl hwf hkind
                  (fun _ => Form.isFreestanding_slots hboundary) hmem)
                (Node.hasNoCopy_part hnone hmem) (fun hname => hclear ?_) hrest
              exact Node.mem_around.mpr ⟨hclosure, Or.inr ⟨part, hmem, hname⟩⟩
            · refine hclear (Node.mem_around.mpr ⟨hclosure, Or.inl ⟨hany, ?_⟩⟩)
              rw [Bool.true_or, ← Node.bound_redirect ⟨writeBackOf pairs, options⟩ _ hwf]
              refine Node.mem_bound_of_mem_partScopes hresult hclosure (fun hmember => ?_)
                (Node.slots_not_quiet hwf hmem hnotQuiet) hpart hname
              have hlist : form ≠ .list := fun e => by
                rw [e] at hmember
                cases hmember
              rw [Node.allAre, if_neg (by simpa [Node.form] using hlist)] at hkind
              rw [show (Node.mk form span parts).form.category = .member from hmember] at hkind
              cases hkind

end

/-! ### Trees without write-backs -/

section

variable {target source : String}

theorem Node.hasNoCopy_mk {form : Form} {span : Span} {parts : List Node} :
    (Node.mk form span parts).hasNoCopy target source = true ↔
      (Node.mk form span parts).isCopy target source = false ∧
        ∀ part ∈ parts, part.hasNoCopy target source = true := by
  rw [Node.hasNoCopy, Node.everywhere_mk, Bool.not_eq_true']
  rfl

theorem Node.isCopy_eq_true {form : Form} {span : Span} {parts : List Node} :
    (Node.mk form span parts).isCopy target source = true ↔ ∃ op left right, form = .assign op ∧
      parts = [left, right] ∧ left.ident? = some (.bind, target) ∧ right.ident? =
        some (.use, source) := by
  constructor
  · intro h
    unfold Node.isCopy at h
    split at h
    · next op _ left right heq =>
      cases heq
      rw [Bool.and_eq_true, beq_iff_eq, beq_iff_eq] at h
      exact ⟨op, left, right, rfl, rfl, h⟩
    · cases h
  · rintro ⟨op, left, right, rfl, rfl, hleft, hright⟩
    simp [Node.isCopy, hleft, hright]

theorem Node.isCopy_map {f : Node → Node} {form : Form} {span : Span} {parts : List Node}
    (h : (Node.mk form span (parts.map f)).isCopy target source = true) : ∃ op left right,
      form = .assign op ∧ parts = [left, right] ∧ (f left).ident? = some (.bind, target) ∧
        (f right).ident? = some (.use, source) := by
  obtain ⟨op, left', right', rfl, heq, hleft, hright⟩ := Node.isCopy_eq_true.mp h
  obtain ⟨left, right, rfl, rfl, rfl⟩ : ∃ left right, parts = [left, right] ∧ f left = left' ∧
      f right = right' := by
    rcases parts with _ | ⟨left, _ | ⟨right, _ | _⟩⟩ <;> simp_all
  exact ⟨op, left, right, rfl, rfl, hleft, hright⟩

theorem Node.mem_names_of_ident? {node : Node} {role : Role} {name : String}
    (h : node.ident? = some (role, name)) : name ∈ node.names := by
  unfold Node.ident? at h
  split at h
  · cases h
    simp [Node.names, Form.names]
  · cases h

/-- A tree without the name of the parameter assigns it to nothing. -/
theorem Node.hasNoCopy_of_notMem {node : Node} (h : source ∉ node.names) :
    node.hasNoCopy target source = true := by
  induction node using Node.inductionOn with
  | step form span parts ih =>
      refine Node.hasNoCopy_mk.mpr ⟨?_, fun part hmem =>
        ih part hmem fun hname => h (Node.names_subset_of_mem hmem hname)⟩
      by_contra hcopy
      obtain ⟨op, left, right, rfl, rfl, -, hright⟩ := Node.isCopy_eq_true.mp (by simpa using hcopy)
      exact h (Node.names_subset_of_mem (by simp) (Node.mem_names_of_ident? hright))

/-- An identifier of a renamed tree has its name, or had the old one. -/
theorem Node.ident?_substitute {old new : String} {node : Node} {role : Role} {name : String}
    (h : (node.substitute old new).ident? = some (role, name)) :
    name ≠ old ∧ node.ident? = some (role, name) ∨ name = new ∧ node.ident? = some (role, old) := by
  obtain ⟨form, span, parts⟩ := node
  unfold Node.substitute at h
  split at h
  · next hscope =>
    cases form with
    | ident role => cases role <;> cases hscope
    | _ => cases h
  split at h
  · split at h
    · cases h
    · next hother =>
      cases h
      exact Or.inl ⟨hother, rfl⟩
  · split at h
    · next hold =>
      cases h
      exact Or.inr ⟨rfl, by rw [← hold]; rfl⟩
    · next hother =>
      cases h
      exact Or.inl ⟨hother, rfl⟩
  · split at h <;> cases h
  · next hident _ =>
    unfold Node.ident? at h
    split at h
    · next heq =>
      cases heq
      exact absurd rfl (hident _ _ _)
    · cases h

/-- Renaming makes no write-back, unless it makes the parameter: then the variable had to be renamed
too. -/
theorem Node.hasNoCopy_substitute {old new : String} {node : Node}
    (h : node.hasNoCopy target source = true) (htarget : new ≠ target)
    (hsource : new = source → old = target ∨ target ∉ node.names) :
    (node.substitute old new).hasNoCopy target source = true := by
  induction node using Node.inductionOn with
  | step form span parts ih =>
      have hparts : ∀ part ∈ substituteIn old new parts, part.hasNoCopy target source = true := by
        rw [substituteIn_eq_map, List.forall_mem_map]
        exact fun part hmem => ih part hmem (Node.hasNoCopy_part h hmem) fun heq =>
          (hsource heq).imp_right fun hnot hname => hnot (Node.names_subset_of_mem hmem hname)
      have hplain : ∀ {form : Form} {span : Span} {parts : List Node},
          (∀ op, form ≠ .assign op) → (Node.mk form span parts).isCopy target source = false := by
        intro form span parts hform
        by_contra hcopy
        obtain ⟨op, -, -, rfl, -⟩ := Node.isCopy_eq_true.mp (by simpa using hcopy)
        exact hform op rfl
      unfold Node.substitute
      split
      · exact h
      split
      · split
        · simp [Node.keyValue, Node.use, Node.hasNoCopy_mk, hplain]
        · exact Node.hasNoCopy_mk.mpr ⟨hplain (by simp), hparts⟩
      · exact Node.hasNoCopy_mk.mpr ⟨hplain (by simp), hparts⟩
      · next ascription value _ =>
        have hascription := Node.hasNoCopy_part h List.mem_cons_self
        have hvalue := hparts (value.substitute old new) (by simp [substituteIn])
        split
        · have hbound : ∀ {optional span}, (Node.mk (.ident .bind new optional) span
              ascription).hasNoCopy target source = true := fun {_ _} =>
            Node.hasNoCopy_mk.mpr ⟨hplain (by simp), (Node.hasNoCopy_mk.mp hascription).2⟩
          refine Node.hasNoCopy_mk.mpr ⟨hplain (by simp), ?_⟩
          simp only [List.mem_cons, List.not_mem_nil, or_false, forall_eq_or_imp, forall_eq]
          refine ⟨by simp [Node.hasNoCopy_mk, hplain], ?_⟩
          split
          · exact hbound
          · exact Node.hasNoCopy_mk.mpr ⟨hplain (by simp), by simp [hbound, hvalue]⟩
        · next hother =>
          rw [substituteIn, Node.substitute_binding _ _ _ hother] at hparts
          exact Node.hasNoCopy_mk.mpr ⟨hplain (by simp), hparts⟩
      · refine Node.hasNoCopy_mk.mpr ⟨?_, hparts⟩
        by_contra hcopy
        rw [Bool.not_eq_false, substituteIn_eq_map] at hcopy
        obtain ⟨op, left, right, rfl, rfl, hleft, hright⟩ := Node.isCopy_map hcopy
        obtain ⟨hne, hleft⟩ := (Node.ident?_substitute hleft).resolve_right fun h =>
          htarget h.1.symm
        rcases Node.ident?_substitute hright with ⟨-, hright⟩ | ⟨heq, -⟩
        · have hold : (Node.mk (.assign op) span [left, right]).isCopy target source = true :=
            Node.isCopy_eq_true.mpr ⟨op, left, right, rfl, rfl, hleft, hright⟩
          exact Bool.false_ne_true ((Node.hasNoCopy_mk.mp h).1.symm.trans hold)
        · rcases hsource heq.symm with hold | hnot
          · exact hne hold.symm
          · exact hnot (Node.names_subset_of_mem (by simp) (Node.mem_names_of_ident? hleft))

theorem Node.hasNoCopy_rename {old new : String} {node : Node}
    (h : node.hasNoCopy target source = true) (htarget : new ≠ target)
    (hsource : new = source → old = target ∨ target ∉ node.names) :
    (node.rename old new).hasNoCopy target source = true := by
  unfold Node.rename
  split
  · exact h
  · exact Node.hasNoCopy_substitute h htarget hsource

/-- An identifier has its name, unless it stands for `this` or `arguments`. -/
theorem Node.ident?_useAliases {aliases : Aliases} {node : Node} {role : Role} {name : String}
    (h : (node.useAliases aliases).ident? = some (role, name)) :
    node.ident? = some (role, name) ∨
      role = .use ∧ (aliases.this? = some name ∨ aliases.arguments? = some name) := by
  obtain ⟨form, span, parts⟩ := node
  unfold Node.useAliases at h
  split at h
  · exact Or.inl h
  split at h
  · split at h
    · next heq =>
      cases h
      exact Or.inr ⟨rfl, Or.inl heq⟩
    · cases h
  · split at h
    · next heq =>
      cases h
      exact Or.inr ⟨rfl, Or.inr heq⟩
    · exact Or.inl h
  · split at h
    · cases h
    · exact Or.inl h
  · cases form with
    | ident => exact Or.inl h
    | _ => cases h

/-- Naming `this` and `arguments` makes no write-back. -/
theorem Node.hasNoCopy_useAliases {aliases : Aliases} {node : Node}
    (h : node.hasNoCopy target source = true) (hthis : aliases.this? ≠ some source)
    (harguments : aliases.arguments? ≠ some source) :
    (node.useAliases aliases).hasNoCopy target source = true := by
  induction node using Node.inductionOn with
  | step form span parts ih =>
      have hleaf :
          ∀ {role : Role} {name : String} {optional : Bool} {span : Span} {parts : List Node},
          (∀ part ∈ parts, part.hasNoCopy target source = true) →
            (Node.mk (.ident role name optional) span parts).hasNoCopy target source = true :=
        fun hparts => Node.hasNoCopy_mk.mpr ⟨rfl, hparts⟩
      unfold Node.useAliases
      split
      · exact h
      split
      · split
        · exact hleaf fun _ hmem => absurd hmem List.not_mem_nil
        · exact h
      · split
        · exact hleaf (Node.hasNoCopy_mk.mp h).2
        · exact h
      · split
        · refine Node.hasNoCopy_mk.mpr ⟨rfl, ?_⟩
          simp only [List.mem_cons, List.not_mem_nil, or_false, forall_eq_or_imp, forall_eq]
          exact ⟨rfl, hleaf fun _ hmem => absurd hmem List.not_mem_nil⟩
        · exact h
      · rw [useAliasesIn_eq_map]
        refine Node.hasNoCopy_mk.mpr ⟨?_, List.forall_mem_map.mpr fun part hmem =>
          ih part hmem (Node.hasNoCopy_part h hmem)⟩
        by_contra hcopy
        rw [Bool.not_eq_false] at hcopy
        obtain ⟨op, left, right, rfl, rfl, hleft, hright⟩ := Node.isCopy_map hcopy
        have hold : (Node.mk (.assign op) span [left, right]).isCopy target source = true := by
          refine Node.isCopy_eq_true.mpr ⟨op, left, right, rfl, rfl, ?_, ?_⟩
          · refine (Node.ident?_useAliases hleft).resolve_right fun hrole => ?_
            cases hrole.1
          · exact (Node.ident?_useAliases hright).resolve_right fun halias =>
              halias.2.elim hthis harguments
        exact Bool.false_ne_true ((Node.hasNoCopy_mk.mp h).1.symm.trans hold)

end

end LoopLowering
