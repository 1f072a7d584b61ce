/-
Taking the `var` declarations out of a tree keeps it well formed and adds no loop.

What is left of a declaration is a statement that is no declaration any more, so it can
stand where statements can but not in the head of a loop or after `export`; there the
declaration is treated on its own.  Patterns and the values of loop variables that are
initialised in their head may be lost, never copied.
-/
import LoopLowering.Proofs.Emit

namespace LoopLowering

/-! ### Places for statements -/

/-- Whether a declaration among the parts of a node may be replaced by any statement. -/
def Form.takesAnyStmt : Form → Bool
  | .forStmt | .forInStmt | .forOfStmt _ | .exportDecl => false
  | _ => true

theorem Form.takesAnyStmt_slots {form : Form} (h : form.takesAnyStmt = true) :
    form.shape.slots.all (fun slot => !slot.categories.contains .varDecl ||
      (slot.categories.contains .stmt && slot.categories.contains .empty)) = true := by
  have htable : (!form.takesAnyStmt || form.shape.slots.all (fun slot =>
      !slot.categories.contains .varDecl ||
        (slot.categories.contains .stmt && slot.categories.contains .empty))) = true := by
    cases form with
    | ident role => cases role <;> rfl
    | _ => rfl
  rw [h] at htable
  exact htable

theorem Form.stmt_mem_of_varDecl_mem {form : Form} (h : form.takesAnyStmt = true) {slot : Slot}
    (hslot : slot ∈ form.shape.slots) (hmem : Category.varDecl ∈ slot.categories) :
    Category.stmt ∈ slot.categories ∧ Category.empty ∈ slot.categories := by
  have htable := List.all_eq_true.mp (Form.takesAnyStmt_slots h) slot hslot
  simpa [hmem] using htable

/-- `b` is what is left of `a` when declarations are taken out. -/
structure Node.HoistsTo (a b : Node) : Prop extends Node.FitsIn Form.takesAnyStmt a b where
  lexical : b.isLexicalDecl = a.isLexicalDecl
  tally : ∀ gauge : Gauge, b.tally gauge ≤ a.tally gauge

theorem Node.HoistsTo.refl {node : Node} (h : node.isWellFormed = true) : node.HoistsTo node :=
  ⟨.refl h, rfl, fun _ => Nat.le_refl _⟩

/-! ### What remains of a declaration -/

/-- What remains of a declarator is an assignment of its initialiser. -/
theorem Node.initAssignment?_eq_some {node expr : Node} (hwf : node.isWellFormed = true)
    (h : node.initAssignment? = some expr) :
    expr.IsExpr ∧ ∀ gauge : Gauge, expr.tally gauge ≤ node.tally gauge := by
  unfold Node.initAssignment? at h
  split at h
  · next definite span name optional bindSpan ascription init =>
    split at h
    · cases h
    · next habsent =>
      cases h
      obtain ⟨hshape, hparts⟩ := Node.isWellFormed_mk.mp hwf
      obtain ⟨_, _, heq, -, hrest⟩ := exists_of_fillSlots_cons (hshape.resolve_left (by simp))
      cases heq
      obtain ⟨_, _, heq, hinit, -⟩ := exists_of_fillSlots_cons hrest
      cases heq
      have hexpr : init.IsExpr := by
        refine ⟨?_, hparts init (by simp)⟩
        simpa [Slot.admits, habsent] using hinit
      refine ⟨Node.isExpr_assignTo hexpr name, fun gauge => ?_⟩
      rw [Node.tally_assignTo, Node.tally_mk rfl]
      exact tally_le_tallyIn (by simp)
  · cases h

theorem initAssignments?_eq_some {span : Span} {declarators : List Node} {expr : Node}
    (hwf : ∀ d ∈ declarators, d.isWellFormed = true)
    (h : initAssignments? span declarators = some expr) :
    expr.IsExpr ∧ ∀ gauge : Gauge, expr.tally gauge ≤ tallyIn gauge declarators := by
  have hexprs : ∀ e ∈ declarators.filterMap Node.initAssignment?, e.IsExpr := by
    intro e he
    obtain ⟨d, hd, hassign⟩ := List.mem_filterMap.mp he
    exact (Node.initAssignment?_eq_some (hwf d hd) hassign).1
  have hle : ∀ gauge, tallyIn gauge (declarators.filterMap Node.initAssignment?) ≤
      tallyIn gauge declarators := by
    intro gauge
    clear h hexprs
    induction declarators with
    | nil => exact Nat.le_refl _
    | cons d ds ih =>
        have hrest := ih fun other hother => hwf other (List.mem_cons_of_mem d hother)
        rw [List.filterMap_cons]
        split
        · exact Nat.le_trans hrest (Nat.le_add_left _ _)
        · next e he =>
          have hfirst := (Node.initAssignment?_eq_some (hwf d List.mem_cons_self) he).2 gauge
          exact Nat.add_le_add hfirst hrest
  unfold initAssignments? Node.sequence? at h
  split at h
  · cases h
  · next e heq =>
    cases h
    rw [heq] at hexprs
    refine ⟨hexprs expr (by simp), fun gauge => ?_⟩
    have hsum := hle gauge
    rw [heq, tallyIn_cons, tallyIn_nil, Nat.add_zero] at hsum
    exact hsum
  · next exprs hnil hone =>
    cases h
    refine ⟨⟨rfl, Node.isWellFormed_mk.mpr ⟨Or.inr ?_, fun e he => (hexprs e he).wellFormed⟩⟩, ?_⟩
    · exact List.all_eq_true.mpr fun e he => (hexprs e he).admitted
    · intro gauge
      rw [Node.tally_mk rfl]
      exact hle gauge

/-- What remains of a `var` statement is a statement. -/
theorem Node.HoistsTo.hoistVar {declare : Bool} {span : Span} {declarators : List Node}
    (hwf : (Node.varDecl .var declare span declarators).isWellFormed = true) :
    (Node.varDecl .var declare span declarators).HoistsTo (hoistVar span declarators) := by
  have hds : ∀ d ∈ declarators, d.isWellFormed = true :=
    fun d hd => Node.isWellFormed_part hwf hd
  unfold LoopLowering.hoistVar
  split
  · next expr heq =>
    obtain ⟨hexpr, htally⟩ := initAssignments?_eq_some hds heq
    refine ⟨Node.FitsIn.of_category (by simp [Node.form]) (by simp [Node.form]) ?_
      (Node.isStmt_exprStmt hexpr).2, rfl, fun gauge => ?_⟩
    · intro form hplace slot hslot hmem
      exact (Form.stmt_mem_of_varDecl_mem hplace hslot hmem).1
    · rw [Node.tally_exprStmt, Node.tally_mk rfl]
      exact htally gauge
  · refine ⟨Node.FitsIn.of_category (by simp [Node.form]) (by simp [Node.form]) ?_ rfl, rfl,
      fun gauge => ?_⟩
    · intro form hplace slot hslot hmem
      exact (Form.stmt_mem_of_varDecl_mem hplace hslot hmem).2
    · rw [Node.tally_mk rfl]
      exact Nat.zero_le _

/-! ### The heads of loops -/

/-- `b` can stand in the slot of a loop head in which `a` stood. -/
structure Node.HeadsFor (slot : Slot) (a b : Node) : Prop where
  admits : slot.admits b = true
  wellFormed : b.isWellFormed = true
  lexical : b.isLexicalDecl = a.isLexicalDecl
  tally : ∀ gauge : Gauge, b.tally gauge ≤ a.tally gauge

theorem Node.headsFor_hoistInit {init : Node} (hwf : init.isWellFormed = true)
    (hslot : (Slot.optional (.varDecl :: Category.exprs)).admits init = true) :
    init.HeadsFor (.optional (.varDecl :: Category.exprs)) init.hoistInit := by
  unfold Node.hoistInit
  split
  · next declare span declarators =>
    cases heq : initAssignments? span declarators with
    | none => exact ⟨rfl, rfl, rfl, fun gauge => by simp⟩
    | some expr =>
        obtain ⟨hexpr, htally⟩ :=
          initAssignments?_eq_some (fun d hd => Node.isWellFormed_part hwf hd) heq
        refine ⟨?_, hexpr.wellFormed, hexpr.isLexicalDecl_eq_false, fun gauge => ?_⟩
        · simp only [Option.getD_some, Slot.admits, List.contains_cons, Bool.or_eq_true]
          exact Or.inr (Or.inr hexpr.admitted)
        · rw [Node.tally_mk rfl]
          exact htally gauge
  · exact ⟨hslot, hwf, rfl, fun _ => Nat.le_refl _⟩

theorem Node.headsFor_hoistLeft {left : Node} (hwf : left.isWellFormed = true)
    (hslot : (Slot.one (.varDecl :: .usingDecl :: Category.patterns)).admits left = true) :
    left.HeadsFor (.one (.varDecl :: .usingDecl :: Category.patterns)) left.hoistLeft := by
  unfold Node.hoistLeft
  split
  · next declare span definite declSpan pattern init =>
    have hwhole : (Node.declarator definite declSpan pattern init).isWellFormed = true :=
      Node.isWellFormed_part hwf (by simp)
    have hdeclarator := Node.isWellFormed_mk.mp hwhole
    obtain ⟨_, _, heq, hpattern, -⟩ :=
      exists_of_fillSlots_cons (hdeclarator.1.resolve_left (by simp))
    cases heq
    refine ⟨?_, hdeclarator.2 pattern (by simp), ?_, fun gauge => ?_⟩
    · simp only [Slot.admits, List.contains_cons, Bool.or_eq_true]
      exact Or.inr (Or.inr hpattern)
    · by_contra hlexical
      have hcategory := Node.category_of_isLexicalDecl (Bool.not_eq_false _ ▸ hlexical)
      rw [Slot.admits, hcategory] at hpattern
      cases hpattern
    · rw [Node.tally_mk rfl, tallyIn_cons, Node.tally_mk rfl, tallyIn_cons]
      omega
  · exact ⟨hslot, hwf, rfl, fun _ => Nat.le_refl _⟩

theorem Node.HoistsTo.stmt_admits {a b : Node} (h : a.HoistsTo b)
    (hslot : (Slot.one Category.stmts).admits a = true) :
    (Slot.one Category.stmts).admits b = true :=
  h.slot .withStmt rfl _ (by simp [Form.shape, Shape.slots]) hslot

/-- A plain loop keeps its declarations as assignments in its head. -/
theorem Node.HoistsTo.forStmt {span : Span} {init test update body : Node}
    (hwf : (Node.forStmt span init test update body).isWellFormed = true)
    (hbody : body.HoistsTo body.hoist) :
    (Node.forStmt span init test update body).HoistsTo
      (.forStmt span init.hoistInit test update body.hoist) := by
  obtain ⟨hshape, hparts⟩ := Node.isWellFormed_mk.mp hwf
  have hfill := hshape.resolve_left (by simp)
  simp only [Form.shape, Shape.admits, fillSlots, Bool.and_true, Bool.and_eq_true] at hfill
  have hinit := Node.headsFor_hoistInit (hparts init (by simp)) hfill.1
  refine ⟨Node.FitsIn.of_category (by simp [Node.form]) (by simp [Node.form])
    (fun _ _ _ _ => id) ?_, rfl, fun gauge => ?_⟩
  · refine Node.isWellFormed_mk.mpr ⟨Or.inr ?_, ?_⟩
    · simp only [Form.shape, Shape.admits, fillSlots, Bool.and_true, Bool.and_eq_true]
      exact ⟨hinit.admits, hfill.2.1, hfill.2.2.1, hbody.stmt_admits hfill.2.2.2⟩
    · simp only [List.mem_cons, List.not_mem_nil, or_false, forall_eq_or_imp, forall_eq] at hparts ⊢
      exact ⟨hinit.wellFormed, hparts.2.1, hparts.2.2.1, hbody.wellFormed⟩
  · refine Node.tally_mono (Node.landmark_congr ?_) ?_
    · exact .cons hinit.lexical (.cons rfl (.cons rfl (.cons hbody.lexical .nil)))
    · have hinitLe := hinit.tally gauge
      have hbodyLe := hbody.tally gauge
      simp only [Node.parts, tallyIn_cons, tallyIn_nil]
      omega

/-- A loop over keys or values keeps the pattern of its head. -/
theorem Node.HoistsTo.overStmt {form : Form} (hshape : form.shape = Form.forInStmt.shape)
    (hlist : form ≠ .list) (habsent : form ≠ .absent) {span : Span} {left right body : Node}
    (hwf : (Node.mk form span [left, right, body]).isWellFormed = true)
    (hbody : body.HoistsTo body.hoist) :
    (Node.mk form span [left, right, body]).HoistsTo
      (.mk form span [left.hoistLeft, right, body.hoist]) := by
  obtain ⟨hfill, hparts⟩ := Node.isWellFormed_mk.mp hwf
  have hfill := hfill.resolve_left hlist
  rw [hshape] at hfill
  simp only [Form.shape, Shape.admits, fillSlots, Bool.and_true, Bool.and_eq_true] at hfill
  have hleft := Node.headsFor_hoistLeft (hparts left (by simp)) hfill.1
  refine ⟨Node.FitsIn.of_category hlist habsent (fun _ _ _ _ => id) ?_, rfl, fun gauge => ?_⟩
  · refine Node.isWellFormed_mk.mpr ⟨Or.inr ?_, ?_⟩
    · rw [hshape]
      simp only [Form.shape, Shape.admits, fillSlots, Bool.and_true, Bool.and_eq_true]
      exact ⟨hleft.admits, hfill.2.1, hbody.stmt_admits hfill.2.2⟩
    · simp only [List.mem_cons, List.not_mem_nil, or_false, forall_eq_or_imp, forall_eq] at hparts ⊢
      exact ⟨hleft.wellFormed, hparts.2.1, hbody.wellFormed⟩
  · refine Node.tally_mono (Node.landmark_congr ?_) ?_
    · exact .cons hleft.lexical (.cons rfl (.cons hbody.lexical .nil))
    · have hleftLe := hleft.tally gauge
      have hbodyLe := hbody.tally gauge
      simp only [Node.parts, tallyIn_cons, tallyIn_nil]
      omega

/-! ### Whole trees -/

/-- Only `var` declarations change their form. -/
theorem Node.form_hoist {node : Node} (h : ∀ declare, node.form ≠ .varDecl .var declare) :
    node.hoist.form = node.form := by
  obtain ⟨form, span, parts⟩ := node
  unfold Node.hoist
  split
  · rfl
  split
  · exact absurd rfl (h _)
  · rfl
  · rfl
  · rfl
  · rfl
  · rfl

/-- Statements stand in blocks and in the cases of a `switch`. -/
theorem Form.eq_of_holdsStmts {form : Form} (h : form.holdsStmts = true) : form = .block ∨
    form = .caseBody := by
  unfold Form.holdsStmts at h
  split at h
  · exact Or.inl rfl
  · exact Or.inr rfl
  · cases h

/-- Leaving out statements that do nothing keeps a statement list what it is. -/
theorem Node.HoistsTo.withoutEmpty {form : Form} (hform : form.holdsStmts = true) {span : Span}
    {parts parts' : List Node}
    (h : (Node.mk form span parts).HoistsTo (.mk form span parts')) :
    (Node.mk form span parts).HoistsTo (.mk form span (withoutEmpty parts')) := by
  have hrepeated : form.shape = .repeated (.one Category.stmts) ∧ form ≠ .list ∧ form ≠ .absent ∧
      form.isPlain = true := by
    obtain rfl | rfl := Form.eq_of_holdsStmts hform
    · exact ⟨rfl, by simp, by simp, rfl⟩
    · exact ⟨rfl, by simp, by simp, rfl⟩
  obtain ⟨hshape, hlist, habsent, hplain⟩ := hrepeated
  obtain ⟨hadmits, hwf⟩ := Node.isWellFormed_mk.mp h.wellFormed
  have hall := hadmits.resolve_left hlist
  rw [hshape] at hall
  refine ⟨Node.FitsIn.of_category hlist habsent (fun _ _ _ _ => id)
    (Node.isWellFormed_mk.mpr ⟨Or.inr ?_, ?_⟩), rfl, fun gauge => ?_⟩
  · rw [hshape]
    exact List.all_eq_true.mpr fun stmt hmem =>
      List.all_eq_true.mp hall stmt (List.mem_of_mem_filter hmem)
  · exact fun stmt hmem => hwf stmt (List.mem_of_mem_filter hmem)
  · refine Nat.le_trans ?_ (h.tally gauge)
    rw [Node.tally_mk hplain, Node.tally_mk hplain]
    exact tallyIn_filter_le _ _

/-- After `export` a declaration other than `var` stays what it is. -/
theorem Node.HoistsTo.exportDecl {span : Span} {decl : Node}
    (hwf : (Node.mk .exportDecl span [decl]).isWellFormed = true)
    (hform : decl.hoist.form = decl.form) (hdecl : decl.HoistsTo decl.hoist) :
    (Node.mk .exportDecl span [decl]).HoistsTo (.mk .exportDecl span [decl.hoist]) := by
  have hfill := (Node.isWellFormed_mk.mp hwf).1.resolve_left (by simp)
  simp only [Form.shape, Shape.admits, fillSlots, Slot.admits, Bool.and_true] at hfill
  refine ⟨Node.FitsIn.of_category (by simp [Node.form]) (by simp [Node.form])
    (fun _ _ _ _ => id) (Node.isWellFormed_mk.mpr ⟨Or.inr ?_, ?_⟩), rfl, fun gauge => ?_⟩
  · simp only [Form.shape, Shape.admits, fillSlots, Slot.admits, Bool.and_true, hform]
    exact hfill
  · simpa using hdecl.wellFormed
  · rw [Node.tally_mk rfl, Node.tally_mk rfl, tallyIn_cons, tallyIn_cons]
    exact Nat.add_le_add_right (hdecl.tally gauge) _

/-- In a place for any statement, the same node around what is left of its parts. -/
theorem Node.HoistsTo.node {form : Form} (hplace : form.takesAnyStmt = true) {span : Span}
    {parts : List Node} (hwf : (Node.mk form span parts).isWellFormed = true)
    (hparts : ∀ part ∈ parts, part.HoistsTo part.hoist) :
    (Node.mk form span parts).HoistsTo (.mk form span (hoistIn parts)) := by
  have hrelated : List.Forall₂ Node.HoistsTo parts (hoistIn parts) := by
    rw [hoistIn_eq_map]
    exact List.forall₂_map_right_iff.mpr (List.forall₂_same.mpr hparts)
  refine ⟨Node.FitsIn.node hplace hwf (hrelated.imp fun _ _ hs => hs.toFitsIn), rfl,
    fun gauge => ?_⟩
  exact Node.tally_mono (Node.landmark_congr (hrelated.imp fun _ _ hs => hs.lexical))
    (tallyIn_le_of_forall₂ (hrelated.imp fun _ _ hs => hs.tally gauge))

/-- Taking the declarations out of a tree keeps it well formed and adds no loop. -/
theorem Node.HoistsTo.hoist {node : Node} (hwf : node.isWellFormed = true) :
    node.HoistsTo node.hoist := by
  induction node using Node.inductionOn with
  | step form span parts ih =>
      have hparts : ∀ part ∈ parts, part.HoistsTo part.hoist :=
        fun part hmem => ih part hmem (Node.isWellFormed_part hwf hmem)
      unfold Node.hoist
      split
      · exact Node.HoistsTo.refl hwf
      split
      · exact Node.HoistsTo.hoistVar hwf
      · exact Node.HoistsTo.refl hwf
      · exact Node.HoistsTo.forStmt hwf (hparts _ (by simp))
      · exact Node.HoistsTo.overStmt rfl (by simp) (by simp) hwf (hparts _ (by simp))
      · next isAwait left right body _ =>
        have hshape : (Form.forOfStmt isAwait).shape = Form.forInStmt.shape := rfl
        exact Node.HoistsTo.overStmt hshape (by simp) (by simp) hwf (hparts _ (by simp))
      · next hvar hexport hfor hforIn hforOf =>
        cases hplace : form.takesAnyStmt with
        | true =>
            have hnode := Node.HoistsTo.node hplace hwf hparts
            split
            · next hholds => exact Node.HoistsTo.withoutEmpty hholds hnode
            · exact hnode
        | false =>
            -- Loops have all their parts, so only an `export` is left.
            unfold Form.takesAnyStmt at hplace
            split at hplace
            · obtain ⟨init, test, update, body, rfl⟩ :=
                List.length_eq_four.mp (Node.length_parts hwf (by simp) rfl)
              exact absurd rfl (hfor init test update body rfl)
            · obtain ⟨left, right, body, rfl⟩ :=
                List.length_eq_three.mp (Node.length_parts hwf (by simp) rfl)
              exact absurd rfl (hforIn left right body rfl)
            · obtain ⟨left, right, body, rfl⟩ :=
                List.length_eq_three.mp (Node.length_parts hwf (by simp) rfl)
              exact absurd rfl (hforOf _ left right body rfl)
            · obtain ⟨decl, rfl⟩ := List.length_eq_one_iff.mp (Node.length_parts hwf (by simp) rfl)
              refine Node.HoistsTo.exportDecl hwf (Node.form_hoist fun declare hdecl => ?_)
                (hparts decl (by simp))
              obtain ⟨declForm, declSpan, declarators⟩ := decl
              cases hdecl
              exact hexport declare declSpan declarators rfl rfl
            · cases hplace

theorem wellFormed_map_hoist {stmts : List Node} (hwf : ∀ stmt ∈ stmts, stmt.isWellFormed = true) :
    ∀ stmt ∈ stmts.map Node.hoist, stmt.isWellFormed = true :=
  List.forall_mem_map.mpr fun stmt hmem => (Node.HoistsTo.hoist (hwf stmt hmem)).wellFormed

theorem hoistStmts_spec {stmts : List Node} (hstmts : ∀ stmt ∈ stmts, stmt.IsStmt) :
    (∀ stmt ∈ hoistStmts stmts, stmt.IsStmt) ∧
      ∀ gauge : Gauge, tallyIn gauge (hoistStmts stmts) ≤ tallyIn gauge stmts := by
  have hrelated : List.Forall₂ Node.HoistsTo stmts (hoistIn stmts) := by
    rw [hoistIn_eq_map]
    exact List.forall₂_map_right_iff.mpr
      (List.forall₂_same.mpr fun stmt hmem => Node.HoistsTo.hoist (hstmts stmt hmem).2)
  refine ⟨fun stmt hmem => ?_, fun gauge => ?_⟩
  · have hmem' := List.mem_of_mem_filter hmem
    rw [hoistIn_eq_map] at hmem'
    obtain ⟨old, hold, rfl⟩ := List.mem_map.mp hmem'
    have hhoist := Node.HoistsTo.hoist (hstmts old hold).2
    exact Node.isStmt_iff.mpr
      ⟨hhoist.stmt_admits (Node.isStmt_iff.mp (hstmts old hold)).1, hhoist.wellFormed⟩
  · exact Nat.le_trans (tallyIn_filter_le _ _)
      (tallyIn_le_of_forall₂ (hrelated.imp fun _ _ hs => hs.tally gauge))

end LoopLowering
