/-
Flattening keeps the shape of a tree.

Turning `let` and `const` into `var`, and resetting them, changes declarations in place;
blocks are visited one after the other while names are drawn, so each statement is
followed through a run of the supply of names.
-/
import LoopLowering.Proofs.Rename
import LoopLowering.Proofs.Results

namespace LoopLowering

/-! ### One statement list -/

/-- A declarator may be given the initialiser `void 0`. -/
theorem Node.Fits.resetInit {node : Node} (hwf : node.isWellFormed = true) :
    node.Fits node.resetInit := by
  unfold Node.resetInit
  split
  · next definite span pattern init =>
    by_cases habsent : init.isAbsent = true
    · rw [if_pos habsent]
      have hinit : ∀ gauge, init.tally gauge = 0 :=
        Node.tally_of_isAbsent (Node.isWellFormed_part hwf (by simp)) habsent
      obtain ⟨hshape, hparts⟩ := Node.isWellFormed_mk.mp hwf
      have hpattern := hshape.resolve_left (by simp)
      simp only [Form.shape, Shape.admits, fillSlots, Bool.and_eq_true] at hpattern
      refine Node.Fits.of_category (by simp [Node.form]) (by simp [Node.form])
        rfl (Node.isWellFormed_mk.mpr ⟨Or.inr ?_, ?_⟩) fun gauge => ?_
      · simp only [Form.shape, Shape.admits, fillSlots, hpattern.1, Bool.and_true]
        rfl
      · simp only [List.mem_cons, List.not_mem_nil, or_false, forall_eq_or_imp, forall_eq]
        exact ⟨hparts pattern (by simp), rfl⟩
      · rw [Node.tally_of_plain rfl, Node.tally_of_plain rfl]
        simp [Node.parts, Node.tally_undefined, hinit]
    · rw [if_neg habsent]
      exact Node.Fits.refl hwf
  · exact Node.Fits.refl hwf

/-- A `let` or `const` statement may become a `var`. -/
theorem Node.Fits.flattenDecl (reset : Bool) {node : Node} (hwf : node.isWellFormed = true) :
    node.Fits (node.flattenDecl reset) := by
  unfold Node.flattenDecl
  split
  · next constant declare span declarators =>
    have hds : List.Forall₂ Node.Fits declarators
        (if reset && !constant then declarators.map Node.resetInit else declarators) := by
      split
      · refine List.forall₂_map_right_iff.mpr (List.forall₂_same.mpr fun d hd => ?_)
        exact Node.Fits.resetInit (Node.isWellFormed_part hwf hd)
      · exact List.forall₂_same.mpr fun d hd => Node.Fits.refl (Node.isWellFormed_part hwf hd)
    have hsame := Node.Fits.node hwf hds rfl
    obtain ⟨hshape, hparts⟩ := Node.isWellFormed_mk.mp hsame.wellFormed
    refine Node.Fits.of_category (by simp [Node.form]) (by simp [Node.form])
      rfl ?_ fun gauge => ?_
    · exact Node.isWellFormed_mk.mpr ⟨Or.inr (hshape.resolve_left (by simp)), hparts⟩
    · rw [← hsame.tally gauge]
      exact Node.tally_congr rfl rfl
  · exact Node.Fits.refl hwf

/-- Renaming clashing names keeps the shape of each statement. -/
theorem forall₂_fits_renameClashing (clashes : String → Bool) (declared : List String)
    {stmts : List Node} (hwf : ∀ stmt ∈ stmts, stmt.isWellFormed = true) (names : Registry) :
    List.Forall₂ Node.Fits stmts ((renameClashing clashes declared stmts).run names).1 := by
  induction declared generalizing stmts names with
  | nil => exact List.forall₂_same.mpr fun stmt hmem => Node.Fits.refl (hwf stmt hmem)
  | cons name declared ih =>
      unfold renameClashing
      split
      · have hrename := (forall₂_stands_rename name ((Naming.rename name).run names).1 hwf).imp
          fun _ _ hs => hs.toFits
        exact Node.Fits.forall₂_trans hrename
          (ih (Node.Fits.wellFormed_of_forall₂ hrename) ((Naming.rename name).run names).2)
      · exact ih hwf names

/-! ### The blocks of a body -/

/-- What changing blocks does to each tree of a list, it does while names are drawn for the
trees before it. -/
theorem forall₂_changeBlocksIn {change : Bool → List Node → Naming (List Node)} {again : Bool}
    {related : Node → Node → Prop} {nodes : List Node}
    (h : ∀ node ∈ nodes, ∀ names, related node ((node.changeBlocks change again).run names).1)
    (names : Registry) :
    List.Forall₂ related nodes ((changeBlocksIn change again nodes).run names).1 := by
  induction nodes generalizing names with
  | nil => exact .nil
  | cons node nodes ih =>
      refine .cons (h node List.mem_cons_self names) ?_
      exact ih (fun other hother => h other (List.mem_cons_of_mem node hother)) _

/-- A change of statement lists that keeps the shape of each statement keeps the shape of
every tree whose blocks it is applied to. -/
theorem Node.Stands.changeBlocks {change : Bool → List Node → Naming (List Node)}
    (hchange : ∀ again stmts names, (∀ stmt ∈ stmts, stmt.isWellFormed = true) →
      List.Forall₂ Node.Fits stmts ((change again stmts).run names).1)
    {node : Node} (hwf : node.isWellFormed = true) (again : Bool) (names : Registry) :
    node.Stands ((node.changeBlocks change again).run names).1 := by
  induction node using Node.inductionOn generalizing again names with
  | step form span parts ih =>
      have hparts : ∀ again, List.Forall₂ Node.Stands parts
          ((changeBlocksIn change again parts).run names).1 := fun again =>
        forall₂_changeBlocksIn
          (fun part hmem => ih part hmem (Node.isWellFormed_part hwf hmem) again) names
      unfold Node.changeBlocks
      split
      · exact Node.Stands.refl hwf
      split
      · exact ⟨Node.Fits.node hwf
          (hchange again parts names fun part hmem => Node.isWellFormed_part hwf hmem) rfl, rfl⟩
      · exact Node.Stands.node hwf (hparts (again || form.isLoop))

/-- Flattening a statement list keeps the shape of each statement. -/
theorem forall₂_fits_flattenTo (clashes : String → Bool) (depth : Nat) (again : Bool)
    (stmts : List Node) (names : Registry) (hwf : ∀ stmt ∈ stmts, stmt.isWellFormed = true) :
    List.Forall₂ Node.Fits stmts ((flattenTo clashes depth again stmts).run names).1 := by
  induction depth generalizing again stmts names with
  | zero => exact List.forall₂_same.mpr fun stmt hmem => Node.Fits.refl (hwf stmt hmem)
  | succ depth ih =>
      have hrename := forall₂_fits_renameClashing clashes (stmts.flatMap Node.blockScopedNames)
        hwf names
      have hrenamed := Node.Fits.wellFormed_of_forall₂ hrename
      have hdecl : List.Forall₂ Node.Fits
          ((renameClashing clashes (stmts.flatMap Node.blockScopedNames) stmts).run names).1
          (((renameClashing clashes (stmts.flatMap Node.blockScopedNames) stmts).run names).1.map
            (·.flattenDecl again)) :=
        List.forall₂_map_right_iff.mpr
          (List.forall₂_same.mpr fun stmt hmem => Node.Fits.flattenDecl again (hrenamed stmt hmem))
      have hblocks := forall₂_changeBlocksIn (fun node hmem =>
          Node.Stands.changeBlocks ih (Node.Fits.wellFormed_of_forall₂ hdecl node hmem) again)
        ((renameClashing clashes (stmts.flatMap Node.blockScopedNames) stmts).run names).2
      exact Node.Fits.forall₂_trans hrename
        (Node.Fits.forall₂_trans hdecl (hblocks.imp fun _ _ hs => hs.toFits))

theorem forall₂_fits_flattenStmts (clashes : String → Bool) (again : Bool) {stmts : List Node}
    (hwf : ∀ stmt ∈ stmts, stmt.isWellFormed = true) (names : Registry) :
    List.Forall₂ Node.Fits stmts ((flattenStmts clashes again stmts).run names).1 :=
  forall₂_fits_flattenTo clashes _ again stmts names hwf

/-- Flattening a loop body in place keeps its shape. -/
theorem Node.Stands.flatten (clashes : String → Bool) {body : Node}
    (hwf : body.isWellFormed = true) (names : Registry) :
    body.Stands ((body.flatten clashes).run names).1 :=
  Node.Stands.changeBlocks (forall₂_fits_flattenTo clashes body.blockDepth) hwf true names

end LoopLowering
