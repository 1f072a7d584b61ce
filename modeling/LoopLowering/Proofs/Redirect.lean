/-
Replacing jumps keeps the shape of a tree.

A jump becomes a `return`, or a block that ends in one; either can stand where the jump
stood.  Expressions and declarations hold jumps inside closures only and are not touched.
-/
import LoopLowering.Proofs.Emit

namespace LoopLowering

/-! ### Statements without landmarks -/

/-- A statement in which there is no loop, no closure and no region. -/
structure Node.IsPlainStmt (node : Node) : Prop where
  stmt : node.IsStmt
  tally : ∀ gauge : Gauge, node.tally gauge = 0

/-- Where a statement that is no declaration can stand, any statement but a declaration
can. -/
theorem Form.block_mem_slots (form : Form) :
    form.shape.slots.all (fun slot =>
      !slot.categories.contains .stmt || slot.categories.contains .block) = true := by
  cases form with
  | ident role => cases role <;> rfl
  | _ => rfl

theorem Form.block_mem_of_stmt_mem {form : Form} {slot : Slot} (hslot : slot ∈ form.shape.slots)
    (h : Category.stmt ∈ slot.categories) : Category.block ∈ slot.categories := by
  have htable := List.all_eq_true.mp form.block_mem_slots slot hslot
  simpa [h] using htable

/-! ### What takes the place of a jump -/

theorem Completion.isStmt_toReturn {completion : Completion}
    (h : ∀ value, completion = .result (some value) → value.IsExpr) (options : Options)
    (span : Span) : (completion.toReturn options span).IsStmt := by
  cases completion with
  | normal => exact Node.isStmt_returnStmt rfl rfl
  | leave =>
      have hexpr : (Node.stringLit options.breakSentinel span).IsExpr := Node.isExpr_stringLit _
      exact Node.isStmt_returnStmt hexpr.optional_admits hexpr.wellFormed
  | result value? =>
      have hvalue : (value?.getD (.undefined span)).IsExpr := by
        cases value? with
        | none => exact Node.isExpr_undefined
        | some value => exact h value rfl
      have hexpr : (Node.objectOf options.returnKey _ span).IsExpr :=
        Node.isExpr_objectOf hvalue options.returnKey
      exact Node.isStmt_returnStmt hexpr.optional_admits hexpr.wellFormed

theorem Completion.tally_toReturn (value? : Option Node) (options : Options) (span : Span)
    (gauge : Gauge) :
    ((Completion.result value?).toReturn options span).tally gauge =
      (value?.map (·.tally gauge)).getD 0 := by
  cases value? <;> simp [Completion.toReturn]

/-- The statement for a `continue` is a statement. -/
theorem Redirection.isPlainStmt_continueStmt {redirection : Redirection}
    (h : ∀ stmt ∈ redirection.writeBack, stmt.IsPlainStmt) (span : Span) :
    (redirection.continueStmt span).IsPlainStmt := by
  have hreturn : (Completion.normal.toReturn redirection.options span).IsStmt :=
    Completion.isStmt_toReturn (fun _ e => by cases e) _ _
  have hzero : ∀ gauge, (Completion.normal.toReturn redirection.options span).tally gauge = 0 := by
    intro gauge
    simp [Completion.toReturn]
  unfold Redirection.continueStmt
  split
  · exact ⟨hreturn, hzero⟩
  · refine ⟨Node.isStmt_block fun stmt hmem => ?_, fun gauge => ?_⟩
    · rcases List.mem_append.mp hmem with hmem | hmem
      · exact (h stmt hmem).stmt
      · rw [List.mem_singleton.mp hmem]
        exact hreturn
    · rw [Node.tally_block, tallyIn_append, tallyIn_eq_zero fun stmt hmem =>
        (h stmt hmem).tally gauge, tallyIn_cons, hzero, tallyIn_nil]

/-- A statement or block of the same weight stands for a statement that declares nothing. -/
theorem Node.Stands.of_stmt {old new : Node} (hold : old.form.category = .stmt) (hnew : new.IsStmt)
    (hsort : new.form.category = .stmt ∨ new.form.category = .block)
    (htally : ∀ gauge, new.tally gauge = old.tally gauge) : old.Stands new := by
  have hlist : old.form ≠ .list := fun e => by rw [e] at hold; cases hold
  have habsent : old.form ≠ .absent := fun e => by rw [e] at hold; cases hold
  have hlexical : ∀ node : Node, node.form.category = .stmt ∨ node.form.category = .block →
      node.isLexicalDecl = false := by
    intro node h
    by_contra hlexical
    rw [Bool.not_eq_false] at hlexical
    rw [Node.category_of_isLexicalDecl hlexical] at h
    rcases h with h | h <;> cases h
  refine ⟨⟨Node.FitsIn.of_category hlist habsent ?_ hnew.2, htally⟩, ?_⟩
  · intro form _ slot hslot hmem
    rw [hold] at hmem
    rcases hsort with hsort | hsort
    · rw [hsort]
      exact hmem
    · rw [hsort]
      exact Form.block_mem_of_stmt_mem hslot hmem
  · rw [hlexical new hsort, hlexical old (Or.inl hold)]

theorem Node.Stands.toReturn {completion : Completion} {options : Options} {span : Span}
    {old : Node} (hold : old.form.category = .stmt)
    (hvalue : ∀ value, completion = .result (some value) → value.IsExpr)
    (htally : ∀ gauge, (completion.toReturn options span).tally gauge = old.tally gauge) :
    old.Stands (completion.toReturn options span) := by
  refine Node.Stands.of_stmt hold (Completion.isStmt_toReturn hvalue options span)
    (Or.inl ?_) htally
  cases completion <;> rfl

/-- The value of a `return` is its argument, if it has one. -/
theorem Node.Stands.toReturn_result {options : Options} {span : Span} {parts : List Node}
    (hwf : (Node.mk .returnStmt span parts).isWellFormed = true) :
    (Node.mk .returnStmt span parts).Stands
      ((Completion.result (parts.find? (!·.isAbsent))).toReturn options span) := by
  obtain ⟨hshape, hparts⟩ := Node.isWellFormed_mk.mp hwf
  obtain ⟨argument, rest, rfl, hslot, hrest⟩ :=
    exists_of_fillSlots_cons (hshape.resolve_left (by simp))
  obtain rfl := eq_nil_of_fillSlots_nil hrest
  have hargument := hparts argument (by simp)
  simp only [Slot.admits, Bool.or_eq_true] at hslot
  cases habsent : argument.isAbsent with
  | true =>
      refine Node.Stands.toReturn rfl (fun value e => ?_) fun gauge => ?_
      · simp [habsent] at e
      · rw [Completion.tally_toReturn, Node.tally_mk rfl]
        simp [habsent, Node.tally_of_isAbsent hargument habsent gauge]
  | false =>
      refine Node.Stands.toReturn rfl (fun value e => ?_) fun gauge => ?_
      · have hvalue : argument = value := by simpa [habsent] using e
        subst hvalue
        exact ⟨hslot.resolve_left (by simp [habsent]), hargument⟩
      · rw [Completion.tally_toReturn, Node.tally_mk rfl]
        simp [habsent]

/-! ### Replacing the jumps -/

/-- Replacing jumps keeps the shape of a tree. -/
theorem Node.Stands.redirect {redirection : Redirection}
    (hback : ∀ stmt ∈ redirection.writeBack, stmt.IsPlainStmt) (ctx : JumpContext) {node : Node}
    (hwf : node.isWellFormed = true) : node.Stands (node.redirect redirection ctx) := by
  induction node using Node.inductionOn generalizing ctx with
  | step form span parts ih =>
      have hnode := Node.Stands.node_map hwf fun part hmem =>
        ih part hmem (ctx.enter form) (Node.isWellFormed_part hwf hmem)
      rw [← redirectIn_eq_map] at hnode
      unfold Node.redirect
      split
      · exact Node.Stands.refl hwf
      split
      · split
        · obtain rfl := Node.parts_eq_nil rfl (by simp) hwf
          refine Node.Stands.toReturn rfl (fun _ e => by cases e) fun gauge => ?_
          rw [Node.tally_mk rfl]
          simp [Completion.toReturn]
        · exact Node.Stands.refl hwf
      · split
        · obtain rfl := Node.parts_eq_nil rfl (by simp) hwf
          have hplain := Redirection.isPlainStmt_continueStmt hback span
          refine Node.Stands.of_stmt rfl hplain.stmt ?_ fun gauge => ?_
          · unfold Redirection.continueStmt
            split
            · exact Or.inl rfl
            · exact Or.inr rfl
          · rw [hplain.tally, Node.tally_mk rfl, tallyIn_nil]
        · exact Node.Stands.refl hwf
      · exact Node.Stands.toReturn_result hwf
      · exact hnode

theorem forall₂_stands_redirectIn {redirection : Redirection}
    (hback : ∀ stmt ∈ redirection.writeBack, stmt.IsPlainStmt) (ctx : JumpContext)
    {nodes : List Node} (hwf : ∀ node ∈ nodes, node.isWellFormed = true) :
    List.Forall₂ Node.Stands nodes (redirectIn redirection ctx nodes) := by
  rw [redirectIn_eq_map]
  exact List.forall₂_map_right_iff.mpr
    (List.forall₂_same.mpr fun node hmem => Node.Stands.redirect hback ctx (hwf node hmem))

/-! ### Nodes without jumps -/

/-- A quiet node has no jump outside closures. -/
theorem Node.redirect_of_isQuiet (redirection : Redirection) (ctx : JumpContext) {node : Node}
    (hwf : node.isWellFormed = true) (hquiet : node.isQuiet = true) :
    node.redirect redirection ctx = node := by
  induction node using Node.inductionOn generalizing ctx with
  | step form span parts ih =>
      unfold Node.redirect
      cases hclosure : form.isClosure with
      | true => rfl
      | false =>
          have hparts : redirectIn redirection (ctx.enter form) parts = parts := by
            rw [redirectIn_eq_map]
            calc parts.map (Node.redirect redirection (ctx.enter form))
                _ = parts.map id := List.map_congr_left fun part hmem =>
                    ih part hmem (ctx.enter form) (Node.isWellFormed_part hwf hmem)
                      (Node.isQuiet_part hwf hquiet hclosure hmem)
                _ = parts := List.map_id parts
          simp only [Bool.false_eq_true, if_false]
          split
          · cases hquiet
          · cases hquiet
          · cases hquiet
          · rw [hparts]

/-! ### Statement by statement -/

/-- Whether statements of the form are jumps. -/
def Form.isJump : Form → Bool
  | .breakStmt _ | .continueStmt _ | .returnStmt => true
  | _ => false

/-- A slot for quiet nodes. -/
def Slot.isQuiet (slot : Slot) : Bool :=
  slot.categories.all (·.isQuiet) && !slot.categories.contains .list

section Statements

variable (redirection : Redirection) (ctx : JumpContext)

theorem Node.redirect_of_admits {slot : Slot} {node : Node} (hslot : slot.isQuiet = true)
    (hadmits : slot.admits node = true) (hwf : node.isWellFormed = true) :
    node.redirect redirection ctx = node := by
  rw [Slot.isQuiet, Bool.and_eq_true, Bool.not_eq_true'] at hslot
  refine Node.redirect_of_isQuiet redirection ctx hwf ?_
  exact Slot.allAre_of_admits rfl hslot.1 (by simpa using hslot.2) hadmits

/-- A statement made of quiet parts has no jump. -/
theorem Node.redirect_of_isQuiet_slots {form : Form} {span : Span} {parts : List Node}
    (hform : form ≠ .list ∧ form.isJump = false) (hslots : form.shape.slots.all Slot.isQuiet = true)
    (hwf : (Node.mk form span parts).isWellFormed = true) :
    (Node.mk form span parts).redirect redirection ctx = .mk form span parts := by
  obtain ⟨hshape, hparts⟩ := Node.isWellFormed_mk.mp hwf
  have hsame : ∀ ctx, redirectIn redirection ctx parts = parts := by
    intro ctx
    rw [redirectIn_eq_map]
    calc parts.map (Node.redirect redirection ctx)
        _ = parts.map id := List.map_congr_left fun part hmem => by
            obtain ⟨slot, hslot, hadmits⟩ := Shape.exists_slot (hshape.resolve_left hform.1) hmem
            exact Node.redirect_of_admits redirection ctx (List.all_eq_true.mp hslots slot hslot)
              hadmits (hparts part hmem)
        _ = parts := List.map_id parts
  unfold Node.redirect
  split
  · rfl
  split
  · cases hform.2
  · cases hform.2
  · cases hform.2
  · rw [hsame]

theorem Node.redirect_mk {form : Form} (hclosure : form.isClosure = false)
    (hjump : form.isJump = false) (span : Span) (parts : List Node) :
    (Node.mk form span parts).redirect redirection ctx =
      .mk form span (parts.map (Node.redirect redirection (ctx.enter form))) := by
  rw [← redirectIn_eq_map]
  unfold Node.redirect
  rw [hclosure]
  simp only [Bool.false_eq_true, if_false]
  split
  · cases hjump
  · cases hjump
  · cases hjump
  · rfl

variable {span : Span}

/-- Where the first part is an expression, it stays. -/
theorem Node.redirect_head {form : Form} (hclosure : form.isClosure = false)
    (hjump : form.isJump = false) {slot : Slot} {slots : List Slot}
    (hshape : form ≠ .list ∧ form.shape = .fixed (slot :: slots)) (hslot : slot.isQuiet = true)
    {head : Node} {parts : List Node}
    (hwf : (Node.mk form span (head :: parts)).isWellFormed = true) :
    (Node.mk form span (head :: parts)).redirect redirection ctx =
      .mk form span (head :: parts.map (Node.redirect redirection (ctx.enter form))) := by
  obtain ⟨hadmits, hparts⟩ := Node.isWellFormed_mk.mp hwf
  have hfill := hadmits.resolve_left hshape.1
  rw [hshape.2, Shape.admits, fillSlots, Bool.and_eq_true] at hfill
  rw [Node.redirect_mk redirection ctx hclosure hjump, List.map_cons,
    Node.redirect_of_admits redirection _ hslot hfill.1 (hparts head List.mem_cons_self)]

theorem Node.redirect_forStmt {init test update body : Node}
    (hwf : (Node.mk .forStmt span [init, test, update, body]).isWellFormed = true) :
    (Node.mk .forStmt span [init, test, update, body]).redirect redirection ctx =
      .mk .forStmt span [init, test, update, body.redirect redirection (ctx.enter .forStmt)] := by
  obtain ⟨hadmits, hparts⟩ := Node.isWellFormed_mk.mp hwf
  have hfill := hadmits.resolve_left (by simp)
  simp only [Form.shape, Shape.admits, fillSlots, Bool.and_eq_true, Bool.and_true] at hfill
  obtain ⟨hinit, htest, hupdate, -⟩ := hfill
  rw [Node.redirect_mk redirection ctx rfl rfl]
  simp only [List.map_cons, List.map_nil]
  rw [Node.redirect_of_admits redirection _ rfl hinit (hparts init (by simp)),
    Node.redirect_of_admits redirection _ rfl htest (hparts test (by simp)),
    Node.redirect_of_admits redirection _ rfl hupdate (hparts update (by simp))]

theorem Node.redirect_overStmt {form : Form}
    (hform : form = .forInStmt ∨ ∃ isAwait, form = .forOfStmt isAwait)
    {left right body : Node} (hwf : (Node.mk form span [left, right, body]).isWellFormed = true) :
    (Node.mk form span [left, right, body]).redirect redirection ctx =
      .mk form span [left, right, body.redirect redirection (ctx.enter form)] := by
  have hsides : (Slot.one (.varDecl :: .usingDecl :: Category.patterns)).admits left = true ∧
      (Slot.one Category.exprs).admits right = true := by
    obtain ⟨hadmits, -⟩ := Node.isWellFormed_mk.mp hwf
    rcases hform with rfl | ⟨isAwait, rfl⟩
    · have hfill := hadmits.resolve_left (by simp)
      simp only [Form.shape, Shape.admits, fillSlots, Bool.and_eq_true, Bool.and_true] at hfill
      exact ⟨hfill.1, hfill.2.1⟩
    · have hfill := hadmits.resolve_left (by simp)
      simp only [Form.shape, Shape.admits, fillSlots, Bool.and_eq_true, Bool.and_true] at hfill
      exact ⟨hfill.1, hfill.2.1⟩
  have hparts := (Node.isWellFormed_mk.mp hwf).2
  have hopen : form.isClosure = false ∧ form.isJump = false := by
    rcases hform with rfl | ⟨isAwait, rfl⟩ <;> exact ⟨rfl, rfl⟩
  rw [Node.redirect_mk redirection ctx hopen.1 hopen.2]
  simp only [List.map_cons, List.map_nil]
  rw [Node.redirect_of_admits redirection _ rfl hsides.1 (hparts left (by simp)),
    Node.redirect_of_admits redirection _ rfl hsides.2 (hparts right (by simp))]

end Statements

end LoopLowering
