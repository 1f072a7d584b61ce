/-
The statements and expressions that lowering emits are well formed, and show no landmarks
but those of the expressions put into them.

The one exception is the function a loop body becomes, which is a landmark itself.
-/
import LoopLowering.Proofs.Grammar

namespace LoopLowering

/-! ### Weights -/

/-- Whether nodes of a form are never landmarks. -/
def Form.isPlain : Form → Bool
  | .forStmt | .forInStmt | .forOfStmt _ => false
  | form => !form.isClosure && !form.ownsRegion

/-- A node of a plain form weighs as much as its parts. -/
theorem Node.tally_mk {form : Form} (h : form.isPlain = true) (span : Span) (parts : List Node)
    (gauge : Gauge) : (Node.mk form span parts).tally gauge = tallyIn gauge parts := by
  refine Node.tally_of_plain ?_
  have hflags : form.isClosure = false ∧ form.ownsRegion = false ∧
      (Node.mk form span parts).isBlockLoop = false := by
    unfold Form.isPlain at h
    split at h
    · cases h
    · cases h
    · cases h
    · next hfor hforIn hforOf =>
      rw [Bool.and_eq_true, Bool.not_eq_true', Bool.not_eq_true'] at h
      refine ⟨h.1, h.2, ?_⟩
      unfold Node.isBlockLoop
      split
      · next heq => cases heq; exact absurd rfl hfor
      · next heq => cases heq; exact absurd rfl hforIn
      · next heq => cases heq; exact absurd rfl (hforOf _)
      · rfl
  unfold Node.landmark
  rw [hflags.2.2]
  simp only [Node.form, hflags.1, hflags.2.1, Bool.false_eq_true, if_false]
  rfl

section Weights

variable (span : Span) (gauge : Gauge)

@[simp] theorem Node.tally_absent : Node.absent.tally gauge = 0 := Node.tally_mk rfl _ _ _

@[simp] theorem Node.tally_use (name : String) : (Node.use name span).tally gauge = 0 :=
  Node.tally_mk rfl _ _ _

@[simp] theorem Node.tally_this : (Node.this span).tally gauge = 0 := Node.tally_mk rfl _ _ _

@[simp] theorem Node.tally_stringLit (value : String) :
    (Node.stringLit value span).tally gauge = 0 :=
  Node.tally_mk rfl _ _ _

@[simp] theorem Node.tally_undefined : (Node.undefined span).tally gauge = 0 := by
  rw [Node.undefined, Node.tally_mk rfl, tallyIn_cons, Node.tally_mk rfl]
  rfl

@[simp] theorem Node.tally_propName (name : String) :
    (Node.mk (.propName name) span []).tally gauge = 0 :=
  Node.tally_mk rfl _ _ _

@[simp] theorem Node.tally_binding (name : String) :
    (Node.binding name false span .absent).tally gauge = 0 := by
  rw [Node.tally_mk rfl, tallyIn_cons, Node.tally_absent]
  rfl

@[simp] theorem Node.tally_list (items : List Node) :
    (Node.list items).tally gauge = tallyIn gauge items :=
  Node.tally_mk rfl _ _ _

@[simp] theorem Node.tally_block (stmts : List Node) :
    (Node.block span stmts).tally gauge = tallyIn gauge stmts :=
  Node.tally_mk rfl _ _ _

@[simp] theorem Node.tally_exprStmt (expr : Node) :
    expr.exprStmt.tally gauge = expr.tally gauge := by
  rw [Node.exprStmt, Node.tally_mk rfl, tallyIn_cons, tallyIn_nil, Nat.add_zero]

@[simp] theorem Node.tally_assignTo (target : String) (value : Node) :
    (Node.assignTo target value span).tally gauge = value.tally gauge := by
  rw [Node.assignTo, Node.tally_mk rfl]
  simp

@[simp] theorem Node.tally_returnStmt (argument : Node) :
    (Node.returnStmt argument span).tally gauge = argument.tally gauge := by
  rw [Node.returnStmt, Node.tally_mk rfl]
  simp

@[simp] theorem Node.tally_breakStmt : (Node.breakStmt span).tally gauge = 0 :=
  Node.tally_mk rfl _ _ _

@[simp] theorem Node.tally_ifStmt (test consequent : Node) :
    (Node.ifStmt test consequent span).tally gauge = test.tally gauge + consequent.tally gauge := by
  rw [Node.ifStmt, Node.tally_mk rfl]
  simp

@[simp] theorem Node.tally_strictEq (left right : Node) :
    (Node.strictEq left right span).tally gauge = left.tally gauge + right.tally gauge := by
  rw [Node.strictEq, Node.tally_mk rfl]
  simp

@[simp] theorem Node.tally_memberOf (object : Node) (property : String) :
    (Node.memberOf object property span).tally gauge = object.tally gauge := by
  rw [Node.memberOf, Node.tally_mk rfl]
  simp

@[simp] theorem Node.tally_keyValue (key : String) (value : Node) :
    (Node.keyValue key value span).tally gauge = value.tally gauge := by
  rw [Node.keyValue, Node.tally_mk rfl]
  simp

@[simp] theorem Node.tally_objectOf (key : String) (value : Node) :
    (Node.objectOf key value span).tally gauge = value.tally gauge := by
  rw [Node.objectOf, Node.tally_mk rfl]
  simp

@[simp] theorem Node.tally_callOf (callee : String) (args : List String) :
    (Node.callOf callee args span).tally gauge = 0 := by
  have hargs : tallyIn gauge (args.map fun arg => .mk (.arg none) .generated [.use arg span]) =
      0 := by
    refine tallyIn_eq_zero fun node hnode => ?_
    obtain ⟨arg, -, rfl⟩ := List.mem_map.mp hnode
    rw [Node.tally_mk rfl]
    simp
  rw [Node.callOf, Node.tally_mk rfl]
  simp [hargs]

@[simp] theorem Node.tally_varStmt (declarators : List (String × Node)) :
    (Node.varStmt span declarators).tally gauge = tallyIn gauge (declarators.map (·.2)) := by
  rw [Node.varStmt, Node.tally_mk rfl]
  induction declarators with
  | nil => rfl
  | cons declarator declarators ih =>
      rw [List.map_cons, List.map_cons, tallyIn_cons, tallyIn_cons, ih, Node.tally_mk rfl]
      simp

/-- The function of a loop weighs as a function does, with the statements in it. -/
theorem Node.tally_functionOf (params : List String) (stmts : List Node) :
    (Node.functionOf params stmts span).tally gauge =
      if gauge.stop .function then 0 else gauge.weight .function + tallyIn gauge stmts := by
  have hparams : tallyIn gauge (params.map fun name =>
      .mk .parameter span [.list [], .binding name false span .absent]) = 0 := by
    refine tallyIn_eq_zero fun node hnode => ?_
    obtain ⟨name, -, rfl⟩ := List.mem_map.mp hnode
    rw [Node.tally_mk rfl]
    simp
  rw [Node.functionOf, Node.tally_mk rfl, tallyIn_cons, tallyIn_nil, Nat.add_zero, Node.tally]
  split
  · next hstop => exact (if_pos hstop).symm
  · next hstop =>
    refine Eq.trans ?_ (if_neg hstop).symm
    simp only [tallyIn_cons, Node.tally_list, hparams, tallyIn_nil, Node.tally_block,
      Node.tally_absent, Nat.zero_add, Nat.add_zero]
    rfl

end Weights

/-! ### Well-formed constructs -/

/-- An expression. -/
structure Node.IsExpr (node : Node) : Prop where
  admitted : (Slot.one Category.exprs).admits node = true
  wellFormed : node.isWellFormed = true

theorem Node.IsExpr.optional_admits {node : Node} (h : node.IsExpr) :
    (Slot.optional Category.exprs).admits node = true := by
  simp only [Slot.admits, Bool.or_eq_true]
  exact Or.inr h.admitted

theorem Node.IsExpr.isLexicalDecl_eq_false {node : Node} (h : node.IsExpr) :
    node.isLexicalDecl = false := by
  by_contra hlexical
  have hadmitted := h.admitted
  rw [Slot.admits, Node.category_of_isLexicalDecl (Bool.not_eq_false _ ▸ hlexical)] at hadmitted
  cases hadmitted

theorem Node.isStmt_iff {node : Node} :
    node.IsStmt ↔ (Slot.one Category.stmts).admits node = true ∧ node.isWellFormed = true := by
  rw [Node.IsStmt, Slot.admits, List.contains_iff_mem]

section WellFormed

variable {span : Span}

attribute [local simp] Form.shape Shape.admits fillSlots

theorem Node.isExpr_use (name : String) : (Node.use name span).IsExpr := ⟨rfl, rfl⟩

theorem Node.isExpr_this : (Node.this span).IsExpr := ⟨rfl, rfl⟩

theorem Node.isExpr_stringLit (value : String) : (Node.stringLit value span).IsExpr := ⟨rfl, rfl⟩

theorem Node.isExpr_undefined : (Node.undefined span).IsExpr := ⟨rfl, rfl⟩

theorem Node.isExpr_strictEq {left right : Node} (hleft : left.IsExpr) (hright : right.IsExpr) :
    (Node.strictEq left right span).IsExpr := by
  refine ⟨rfl, Node.isWellFormed_mk.mpr ⟨Or.inr ?_, ?_⟩⟩
  · simp [hleft.admitted, hright.admitted]
  · simp [hleft.wellFormed, hright.wellFormed]

theorem Node.isExpr_memberOf {object : Node} (hobject : object.IsExpr) (property : String) :
    (Node.memberOf object property span).IsExpr := by
  refine ⟨rfl, Node.isWellFormed_mk.mpr ⟨Or.inr ?_, ?_⟩⟩
  · simp only [Form.shape, Shape.admits, fillSlots, hobject.admitted, Bool.true_and]
    rfl
  · simp only [List.mem_cons, List.not_mem_nil, or_false, forall_eq_or_imp, forall_eq]
    exact ⟨hobject.wellFormed, rfl⟩

theorem Node.isExpr_objectOf {value : Node} (hvalue : value.IsExpr) (key : String) :
    (Node.objectOf key value span).IsExpr := by
  have hproperty : (Node.keyValue key value span).isWellFormed = true := by
    refine Node.isWellFormed_mk.mpr ⟨Or.inr ?_, ?_⟩
    · simp only [Form.shape, Shape.admits, fillSlots, hvalue.admitted, Bool.and_true]
      rfl
    · simp only [List.mem_cons, List.not_mem_nil, or_false, forall_eq_or_imp, forall_eq]
      exact ⟨rfl, hvalue.wellFormed⟩
  exact ⟨rfl, Node.isWellFormed_mk.mpr ⟨Or.inr rfl, by simpa using hproperty⟩⟩

theorem Node.isExpr_assignTo {value : Node} (hvalue : value.IsExpr) (target : String) :
    (Node.assignTo target value span).IsExpr := by
  refine ⟨rfl, Node.isWellFormed_mk.mpr ⟨Or.inr ?_, ?_⟩⟩
  · simp only [Form.shape, Shape.admits, fillSlots, hvalue.admitted, Bool.and_true]
    rfl
  · simp only [List.mem_cons, List.not_mem_nil, or_false, forall_eq_or_imp, forall_eq]
    exact ⟨rfl, hvalue.wellFormed⟩

theorem Node.isExpr_callOf (callee : String) (args : List String) :
    (Node.callOf callee args span).IsExpr := by
  refine ⟨rfl, Node.isWellFormed_mk.mpr ⟨Or.inr ?_, ?_⟩⟩
  · simp only [Form.shape, Shape.admits, fillSlots, Bool.and_true, Bool.and_eq_true]
    refine ⟨rfl, ?_⟩
    simp [Slot.admits, Node.isListOf, Node.list, Node.form, Node.parts, Form.category]
  · simp only [List.mem_cons, List.not_mem_nil, or_false, forall_eq_or_imp, forall_eq]
    refine ⟨rfl, Node.isWellFormed_mk.mpr ⟨Or.inl rfl, ?_⟩⟩
    rintro node hnode
    obtain ⟨arg, -, rfl⟩ := List.mem_map.mp hnode
    rfl

theorem Node.isExpr_functionOf {stmts : List Node} (hstmts : ∀ stmt ∈ stmts, stmt.IsStmt)
    (params : List String) : (Node.functionOf params stmts span).IsExpr := by
  have hblock : (Node.block span stmts).isWellFormed = true := by
    refine Node.isWellFormed_mk.mpr ⟨Or.inr ?_, fun stmt hmem => (hstmts stmt hmem).2⟩
    exact List.all_eq_true.mpr fun stmt hmem => (Node.isStmt_iff.mp (hstmts stmt hmem)).1
  have hparams : (Node.list (params.map fun name =>
      .mk .parameter span [.list [], .binding name false span .absent])).isWellFormed = true := by
    refine Node.isWellFormed_mk.mpr ⟨Or.inl rfl, ?_⟩
    intro node hnode
    obtain ⟨name, -, rfl⟩ := List.mem_map.mp hnode
    rfl
  refine ⟨rfl, Node.isWellFormed_mk.mpr ⟨Or.inr rfl, ?_⟩⟩
  simp only [List.mem_cons, List.not_mem_nil, or_false, forall_eq]
  refine Node.isWellFormed_mk.mpr ⟨Or.inr ?_, ?_⟩
  · simp only [Form.shape, Shape.admits, fillSlots, Bool.and_true, Bool.and_eq_true]
    refine ⟨?_, rfl, rfl, rfl⟩
    simp [Slot.admits, Node.isListOf, Node.list, Node.form, Node.parts, Form.category]
  · simp only [List.mem_cons, List.not_mem_nil, or_false, forall_eq_or_imp, forall_eq]
    exact ⟨hparams, rfl, hblock, rfl⟩

theorem Node.isStmt_exprStmt {expr : Node} (hexpr : expr.IsExpr) : expr.exprStmt.IsStmt := by
  refine Node.isStmt_iff.mpr ⟨rfl, Node.isWellFormed_mk.mpr ⟨Or.inr ?_, ?_⟩⟩
  · simp [hexpr.admitted]
  · simpa using hexpr.wellFormed

theorem Node.isStmt_returnStmt {argument : Node}
    (hslot : (Slot.optional Category.exprs).admits argument = true)
    (hwf : argument.isWellFormed = true) : (Node.returnStmt argument span).IsStmt := by
  refine Node.isStmt_iff.mpr ⟨rfl, Node.isWellFormed_mk.mpr ⟨Or.inr ?_, by simpa using hwf⟩⟩
  simp [hslot]

theorem Node.isStmt_breakStmt : (Node.breakStmt span).IsStmt := Node.isStmt_iff.mpr ⟨rfl, rfl⟩

theorem Node.isStmt_ifStmt {test consequent : Node} (htest : test.IsExpr)
    (hconsequent : consequent.IsStmt) : (Node.ifStmt test consequent span).IsStmt := by
  have hstmt := Node.isStmt_iff.mp hconsequent
  refine Node.isStmt_iff.mpr ⟨rfl, Node.isWellFormed_mk.mpr ⟨Or.inr ?_, ?_⟩⟩
  · simp only [Form.shape, Shape.admits, fillSlots, htest.admitted, hstmt.1, Bool.true_and]
    rfl
  · simp only [List.mem_cons, List.not_mem_nil, or_false, forall_eq_or_imp, forall_eq]
    exact ⟨htest.wellFormed, hstmt.2, rfl⟩

theorem Node.isStmt_block {stmts : List Node} (hstmts : ∀ stmt ∈ stmts, stmt.IsStmt) :
    (Node.block span stmts).IsStmt := by
  refine Node.isStmt_iff.mpr ⟨rfl, Node.isWellFormed_mk.mpr
    ⟨Or.inr ?_, fun stmt hmem => (hstmts stmt hmem).2⟩⟩
  exact List.all_eq_true.mpr fun stmt hmem => (Node.isStmt_iff.mp (hstmts stmt hmem)).1

theorem Node.isStmt_varStmt {declarators : List (String × Node)}
    (h : ∀ declarator ∈ declarators, declarator.2 = .absent ∨ declarator.2.IsExpr) :
    (Node.varStmt span declarators).IsStmt := by
  refine Node.isStmt_iff.mpr ⟨rfl, Node.isWellFormed_mk.mpr ⟨Or.inr ?_, ?_⟩⟩
  · refine List.all_eq_true.mpr fun node hnode => ?_
    obtain ⟨⟨name, init⟩, -, rfl⟩ := List.mem_map.mp hnode
    rfl
  · intro node hnode
    obtain ⟨⟨name, init⟩, hmem, rfl⟩ := List.mem_map.mp hnode
    refine Node.isWellFormed_mk.mpr ⟨Or.inr ?_, ?_⟩
    · have hinit : (Slot.optional Category.exprs).admits init = true := by
        rcases h (name, init) hmem with rfl | hexpr
        · rfl
        · exact hexpr.optional_admits
      simp only [Form.shape, Shape.admits, fillSlots, hinit, Bool.and_true]
      rfl
    · simp only [List.mem_cons, List.not_mem_nil, or_false, forall_eq_or_imp, forall_eq]
      refine ⟨rfl, ?_⟩
      rcases h (name, init) hmem with rfl | hexpr
      · rfl
      · exact hexpr.wellFormed

end WellFormed

end LoopLowering
