/-
Renaming, and naming `this` and `arguments`, keep the shape of a tree.

Both replace names in place.  The only nodes they rebuild are shorthand properties and
shorthand patterns, which turn into a key and a value, and these have no statements in
them.
-/
import LoopLowering.Proofs.Emit

namespace LoopLowering

/-! ### Nodes that are rebuilt -/

/-- A shorthand property may be written out. -/
theorem Node.Stands.keyValue_short {name new key : String} {optional : Bool} {span : Span}
    {parts : List Node}
    (hwf : (Node.mk (.ident .short name optional) span parts).isWellFormed = true) :
    (Node.mk (.ident .short name optional) span parts).Stands
      (.keyValue key (.use new span) span) := by
  obtain rfl := Node.parts_eq_nil rfl (by simp) hwf
  refine ⟨Node.Fits.of_category (by simp [Node.form]) (by simp [Node.form]) rfl
    rfl fun gauge => ?_, rfl⟩
  rw [Node.tally_keyValue, Node.tally_use, Node.tally_of_plain rfl]
  rfl

/-- An identifier may have another name. -/
theorem Node.Stands.ident {role : Role} {name new : String} {optional : Bool} {span : Span}
    {parts parts' : List Node}
    (h : (Node.mk (.ident role name optional) span parts).Stands
      (.mk (.ident role name optional) span parts')) :
    (Node.mk (.ident role name optional) span parts).Stands
      (.mk (.ident role new optional) span parts') := by
  have hwf := Node.isWellFormed_mk.mp h.wellFormed
  refine ⟨Node.Fits.of_category (by simp [Node.form]) (by simp [Node.form]) ?_ ?_
    fun gauge => ?_, rfl⟩
  · cases role <;> rfl
  · refine Node.isWellFormed_mk.mpr ⟨Or.inr ?_, hwf.2⟩
    have hshape := hwf.1.resolve_left (by simp)
    cases role <;> exact hshape
  · rw [← h.tally gauge]
    exact Node.tally_congr rfl rfl

/-- A shorthand pattern may be written out, its default value included. -/
theorem Node.Stands.keyValuePat_short {name new key : String} {optional : Bool}
    {span keySpan : Span} {ascription : List Node} {value value' : Node}
    (hwf : (Node.mk .assignPatProp span
      [.mk (.ident .bind name optional) keySpan ascription, value]).isWellFormed = true)
    (hvalue : value.Stands value') :
    (Node.mk .assignPatProp span [.mk (.ident .bind name optional) keySpan ascription,
      value]).Stands (.mk .keyValuePat .generated
        [.mk (.propName key) keySpan [],
         if value.isAbsent then .mk (.ident .bind new optional) keySpan ascription
         else .mk .assignPat span [.mk (.ident .bind new optional) keySpan ascription,
           value']]) := by
  have hbound : (Node.mk (.ident .bind name optional) keySpan ascription).Stands
      (.mk (.ident .bind new optional) keySpan ascription) :=
    Node.Stands.ident (Node.Stands.refl (Node.isWellFormed_part hwf List.mem_cons_self))
  have hkey : (Node.mk (.propName key) keySpan []).isWellFormed = true := rfl
  have hold : ∀ gauge, (Node.mk .assignPatProp span
      [.mk (.ident .bind name optional) keySpan ascription, value]).tally gauge =
      (Node.mk (.ident .bind new optional) keySpan ascription).tally gauge + value.tally gauge := by
    intro gauge
    rw [Node.tally_of_plain rfl, hbound.tally]
    rfl
  have hkeyTally : ∀ gauge, (Node.mk (.propName key) keySpan []).tally gauge = 0 :=
    fun gauge => Node.tally_of_plain rfl
  have hadmits : (Slot.optional Category.exprs).admits value = true := by
    have hshape := (Node.isWellFormed_mk.mp hwf).1.resolve_left (by simp)
    simp only [Form.shape, Shape.admits, fillSlots, Bool.and_eq_true] at hshape
    exact hshape.2.1
  cases habsent : value.isAbsent with
  | true =>
      refine ⟨Node.Fits.of_category (by simp [Node.form]) (by simp [Node.form])
        rfl ?_ fun gauge => ?_, rfl⟩
      · exact Node.isWellFormed_mk.mpr ⟨Or.inr rfl, by
          simpa [hkey] using hbound.wellFormed⟩
      · have hvalueTally : value.tally gauge = 0 :=
          Node.tally_of_isAbsent (Node.isWellFormed_part hwf (by simp)) habsent gauge
        rw [hold, hvalueTally, Node.tally_of_plain rfl]
        simp [Node.parts, hkeyTally]
  | false =>
      have hexpr : (Slot.one Category.exprs).admits value = true := by
        rw [Slot.admits, habsent] at hadmits
        exact hadmits
      have hexpr' : (Slot.one Category.exprs).admits value' = true :=
        hvalue.slot .assignPat rfl _ (by simp [Form.shape, Shape.slots]) hexpr
      have hpat : (Node.mk .assignPat span
          [.mk (.ident .bind new optional) keySpan ascription, value']).isWellFormed = true := by
        refine Node.isWellFormed_mk.mpr ⟨Or.inr ?_, by simp [hbound.wellFormed, hvalue.wellFormed]⟩
        simp only [Form.shape, Shape.admits, fillSlots, hexpr', Bool.and_true]
        rfl
      refine ⟨Node.Fits.of_category (by simp [Node.form]) (by simp [Node.form])
        rfl ?_ fun gauge => ?_, rfl⟩
      · exact Node.isWellFormed_mk.mpr ⟨Or.inr rfl, by simpa [hkey] using hpat⟩
      · rw [hold, Node.tally_of_plain rfl]
        simp only [Node.parts, tallyIn_cons, tallyIn_nil, hkeyTally, Bool.false_eq_true, if_false]
        rw [Node.tally_of_plain rfl]
        simp [Node.parts, hvalue.tally]

/-! ### Renaming -/

theorem Node.substitute_binding {old new name : String} (optional : Bool) (span : Span)
    (ascription : List Node) (h : name ≠ old) :
    (Node.mk (.ident .bind name optional) span ascription).substitute old new =
      .mk (.ident .bind name optional) span (substituteIn old new ascription) := by
  unfold Node.substitute
  rw [if_neg (by simp [Node.scopeNames, Node.headNames])]
  simp [h]

/-- Renaming keeps the shape of a tree. -/
theorem Node.Stands.substitute (old new : String) {node : Node} (hwf : node.isWellFormed = true) :
    node.Stands (node.substitute old new) := by
  induction node using Node.inductionOn with
  | step form span parts ih =>
      have hparts : ∀ part ∈ parts, part.Stands (part.substitute old new) :=
        fun part hmem => ih part hmem (Node.isWellFormed_part hwf hmem)
      have hnode := Node.Stands.node_map hwf hparts
      rw [← substituteIn_eq_map] at hnode
      unfold Node.substitute
      split
      · exact Node.Stands.refl hwf
      split
      · split
        · exact Node.Stands.keyValue_short hwf
        · exact hnode
      · exact Node.Stands.ident hnode
      · split
        · exact Node.Stands.keyValuePat_short hwf (hparts _ (by simp))
        · next hname =>
          rw [substituteIn, substituteIn, substituteIn,
            Node.substitute_binding _ _ _ hname] at hnode
          exact hnode
      · exact hnode

theorem Node.Stands.rename (old new : String) {node : Node} (hwf : node.isWellFormed = true) :
    node.Stands (node.rename old new) := by
  unfold Node.rename
  split
  · exact Node.Stands.refl hwf
  · exact Node.Stands.substitute old new hwf

/-- Renaming throughout a list keeps the shape of each of its trees. -/
theorem forall₂_stands_rename (old new : String) {nodes : List Node}
    (hwf : ∀ node ∈ nodes, node.isWellFormed = true) :
    List.Forall₂ Node.Stands nodes (nodes.map (·.rename old new)) :=
  List.forall₂_map_right_iff.mpr
    (List.forall₂_same.mpr fun node hmem => Node.Stands.rename old new (hwf node hmem))

theorem Node.Stands.renameAll (renamings : List (String × String)) {node : Node}
    (hwf : node.isWellFormed = true) : node.Stands (renameAll renamings node) := by
  induction renamings generalizing node with
  | nil => exact Node.Stands.refl hwf
  | cons pair renamings ih =>
      have hfirst := Node.Stands.rename pair.1 pair.2 hwf
      exact hfirst.trans (ih hfirst.wellFormed)

/-! ### Names for `this` and `arguments` -/

/-- `this` may be replaced by a variable. -/
theorem Node.Stands.use_this {name : String} {span : Span} {parts : List Node}
    (hwf : (Node.mk .thisExpr span parts).isWellFormed = true) :
    (Node.mk .thisExpr span parts).Stands (.use name span) := by
  obtain rfl := Node.parts_eq_nil rfl (by simp) hwf
  refine ⟨Node.Fits.of_category (by simp [Node.form]) (by simp [Node.form]) rfl
    rfl fun gauge => ?_, rfl⟩
  exact Node.tally_congr rfl rfl

/-- Aliases keep the shape of a tree. -/
theorem Node.Stands.useAliases (aliases : Aliases) {node : Node} (hwf : node.isWellFormed = true) :
    node.Stands (node.useAliases aliases) := by
  induction node using Node.inductionOn with
  | step form span parts ih =>
      have hparts : ∀ part ∈ parts, part.Stands (part.useAliases aliases) :=
        fun part hmem => ih part hmem (Node.isWellFormed_part hwf hmem)
      have hnode := Node.Stands.node_map hwf hparts
      rw [← useAliasesIn_eq_map] at hnode
      unfold Node.useAliases
      split
      · exact Node.Stands.refl hwf
      split
      · split
        · exact Node.Stands.use_this hwf
        · exact Node.Stands.refl hwf
      · split
        · exact Node.Stands.ident (Node.Stands.refl hwf)
        · exact Node.Stands.refl hwf
      · split
        · exact Node.Stands.keyValue_short hwf
        · exact Node.Stands.refl hwf
      · exact hnode

theorem forall₂_stands_useAliasesIn (aliases : Aliases) {nodes : List Node}
    (hwf : ∀ node ∈ nodes, node.isWellFormed = true) :
    List.Forall₂ Node.Stands nodes (useAliasesIn aliases nodes) := by
  rw [useAliasesIn_eq_map]
  exact List.forall₂_map_right_iff.mpr
    (List.forall₂_same.mpr fun node hmem => Node.Stands.useAliases aliases (hwf node hmem))

end LoopLowering
